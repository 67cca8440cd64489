import ParanoidChain.Tx.BodyHash
import ParanoidChain.Tx.Wire

/-!
# Paged spends

A logical transaction is a run of pages with one owner, one epoch anchor and one fee, balanced as a
whole. `validatePagedSpend` follows the code check by check: page count, page shapes, the start and
end markers, the per-page agreement loop, one scan over every record of every page, and the checks
on the totals of that scan.

The scan's accumulators are the fields of `PageScan`; a hash set of slots is a list with no repeats,
since only membership is ever asked.
-/

namespace ParanoidChain

open Lib

def pagedSpendStartBit : U16 := 1#16 <<< 10
def pagedSpendEndBit : U16 := 1#16 <<< 11
def pagedSpendContractBit : U16 := 1#16 <<< 12
def pagedSpendTerminalBit : U16 := 1#16 <<< 13
def pagedSpendMarkerMask : U16 := pagedSpendStartBit ||| pagedSpendEndBit
def pagedSpendV2ContractMask : U16 := pagedSpendContractBit ||| pagedSpendTerminalBit
def pagedSpendValidityMask : U16 :=
  txValidityMask ||| pagedSpendMarkerMask ||| pagedSpendV2ContractMask
def pagedSpendVersion : Block128 := 1
def maxPagedSpendPages : Nat := 128
def maxPagedSpendInputs : Nat := 1020
def maxPagedSpendOutputs : Nat := maxPagedSpendPages * txOutputs

/-- One physical page. -/
structure TxPage where
  body : TxBody
  deriving DecidableEq, Repr

namespace TxPage

def isStart (page : TxPage) : Bool := (page.body.validityBitmap &&& pagedSpendStartBit) != 0

def isEnd (page : TxPage) : Bool := (page.body.validityBitmap &&& pagedSpendEndBit) != 0

def pageHash (hashes : TxHashes) (page : TxPage) : Digest := page.body.txid hashes

end TxPage

/-- What a validated group is known to be. -/
structure PagedSpendFacts where
  logicalTxid : Digest
  inputOwner : Address
  epochAnchor : Digest
  fee : U64
  liveInputs : U16
  liveOutputs : U16
  inputSum : U128
  outputSum : U128
  deriving DecidableEq, Repr

inductive PagedSpendError where
  | wire (error : WireError)
  | pageCount (actual : Nat)
  | reservedBitmapBits (page : Nat) (bitmap : U16)
  | coinbasePage (page : Nat)
  | deadInputNotZero (page slot : Nat)
  | deadOutputNotZero (page slot : Nat)
  | missingStart
  | unexpectedStart (page : Nat)
  | missingEnd
  | unexpectedEnd (page : Nat)
  | ownerMismatch (page : Nat)
  | epochMismatch (page : Nat)
  | continuationFee (page : Nat)
  | sparseInputs (page slot : Nat)
  | sparseOutputs (page slot : Nat)
  | noLiveInputs
  | tooManyInputs (actual : Nat)
  | tooManyOutputs (actual : Nat)
  | nonMinimalPageCount (actual required : Nat)
  | duplicateInputSlot (slot : U32)
  | duplicateOutputSlot (slot : U32)
  | inputOutputSlotOverlap (slot : U32)
  | inputSumOverflow
  | outputSumOverflow
  | outputPlusFeeOverflow
  | balanceMismatch (inputSum outputSum : U128) (fee : U64)
  | authorizationTooLarge (actual : Nat)
  | intentTooLarge (actual : Nat)
  deriving DecidableEq, Repr

def hashPagedSpendUnchecked (hashes : TxHashes) (pages : List TxPage) : Digest :=
  hashes.sponge .pagedSpend <|
    (pagedSpendVersion, BitVec.ofNat 128 pages.length) ::
      pages.map fun page => digestFields (page.pageHash hashes)

def validatePageCount (count : Nat) : Except PagedSpendError Unit :=
  reject (¬ (1 ≤ count ∧ count ≤ maxPagedSpendPages)) (.pageCount count)

/-- Reserved bits, the system flag, and zero records where the bitmap says dead. -/
def validatePageShape (body : TxBody) (page : Nat) : Except PagedSpendError Unit := do
  reject ((body.validityBitmap &&& ~~~pagedSpendValidityMask) ≠ 0)
    (.reservedBitmapBits page body.validityBitmap)
  reject (body.isCoinbase = true) (.coinbasePage page)
  forM (TxBody.enumerate body.inputs) fun (slot, input) =>
    reject (body.inputIsLive slot = false ∧ input ≠ .dummy) (.deadInputNotZero page slot)
  forM (TxBody.enumerate body.outputs) fun (slot, output) =>
    reject (body.outputIsLive slot = false ∧ output ≠ .dummy) (.deadOutputNotZero page slot)

/-- `TxPage::new`. -/
def TxPage.new (body : TxBody) : Except PagedSpendError TxPage := do
  validatePageShape body 0
  return ⟨body⟩

/-- One page of the agreement loop: markers, owner, epoch and fee against the first page. -/
def validatePageAgreement (first : TxPage) (pageCount : Nat) (pageIndex : Nat) (page : TxPage) :
    Except PagedSpendError Unit := do
  reject (pageIndex ≠ 0 ∧ page.isStart = true) (.unexpectedStart pageIndex)
  reject (pageIndex + 1 ≠ pageCount ∧ page.isEnd = true) (.unexpectedEnd pageIndex)
  reject (page.body.inputOwner ≠ first.body.inputOwner) (.ownerMismatch pageIndex)
  reject (page.body.epochAnchor ≠ first.body.epochAnchor) (.epochMismatch pageIndex)
  reject (pageIndex ≠ 0 ∧ page.body.fee ≠ 0) (.continuationFee pageIndex)

/-- The accumulators of the record scan. -/
structure PageScan where
  inputSlots : List U32
  outputSlots : List U32
  liveInputs : Nat
  liveOutputs : Nat
  inputSum : U128
  outputSum : U128
  inputGap : Bool
  outputGap : Bool
  deriving DecidableEq, Repr

namespace PageScan

def start : PageScan :=
  { inputSlots := [], outputSlots := [], liveInputs := 0, liveOutputs := 0,
    inputSum := 0, outputSum := 0, inputGap := false, outputGap := false }

/-- One input record: live records are counted, must follow no gap and name a fresh slot. -/
def scanInput (body : TxBody) (pageIndex : Nat) (scan : PageScan) (entry : Nat × TxInput) :
    Except PagedSpendError PageScan :=
  if body.inputIsLive entry.1 = true then do
    reject (scan.inputGap = true) (.sparseInputs pageIndex entry.1)
    reject (maxPagedSpendInputs < scan.liveInputs + 1) (.tooManyInputs (scan.liveInputs + 1))
    reject (entry.2.slotIndex ∈ scan.inputSlots) (.duplicateInputSlot entry.2.slotIndex)
    let inputSum ← okOr .inputSumOverflow (checkedAdd scan.inputSum (toBlock128 entry.2.amount))
    return { scan with
      inputSlots := entry.2.slotIndex :: scan.inputSlots
      liveInputs := scan.liveInputs + 1
      inputSum }
  else
    return { scan with inputGap := true }

/-- One output record, likewise. -/
def scanOutput (body : TxBody) (pageIndex : Nat) (scan : PageScan) (entry : Nat × TxOutput) :
    Except PagedSpendError PageScan :=
  if body.outputIsLive entry.1 = true then do
    reject (scan.outputGap = true) (.sparseOutputs pageIndex entry.1)
    reject (maxPagedSpendOutputs < scan.liveOutputs + 1) (.tooManyOutputs (scan.liveOutputs + 1))
    reject (entry.2.slotIndex ∈ scan.outputSlots) (.duplicateOutputSlot entry.2.slotIndex)
    let outputSum ← okOr .outputSumOverflow
      (checkedAdd scan.outputSum (toBlock128 entry.2.amount))
    return { scan with
      outputSlots := entry.2.slotIndex :: scan.outputSlots
      liveOutputs := scan.liveOutputs + 1
      outputSum }
  else
    return { scan with outputGap := true }

/-- One page: its inputs, then its outputs. -/
def scanPage (scan : PageScan) (entry : TxPage × Nat) : Except PagedSpendError PageScan := do
  let body := entry.1.body
  let scan ← (TxBody.enumerate body.inputs).foldlM (scanInput body entry.2) scan
  (TxBody.enumerate body.outputs).foldlM (scanOutput body entry.2) scan

end PageScan

/-- Pages needed for the given record counts. -/
def requiredPages (liveInputs liveOutputs : Nat) : Nat :=
  max (max 1 ((liveInputs + txInputs - 1) / txInputs)) ((liveOutputs + txOutputs - 1) / txOutputs)

/-- Validate one complete group. The first and the last page exist once the count is checked. -/
def validatePagedSpend (hashes : TxHashes) (pages : List TxPage) :
    Except PagedSpendError PagedSpendFacts := do
  validatePageCount pages.length
  forM pages.zipIdx fun (page, pageIndex) => validatePageShape page.body pageIndex
  let first ← okOr (.pageCount pages.length) pages.head?
  let last ← okOr (.pageCount pages.length) pages.getLast?
  reject (first.isStart = false) .missingStart
  reject (last.isEnd = false) .missingEnd
  forM pages.zipIdx fun (page, pageIndex) =>
    validatePageAgreement first pages.length pageIndex page
  let scan ← pages.zipIdx.foldlM PageScan.scanPage .start
  reject (scan.liveInputs = 0) .noLiveInputs
  rejectSome (scan.inputSlots.find? (· ∈ scan.outputSlots)) .inputOutputSlotOverlap
  let required := requiredPages scan.liveInputs scan.liveOutputs
  reject (pages.length ≠ required) (.nonMinimalPageCount pages.length required)
  let fee := first.body.fee
  let expected ← okOr .outputPlusFeeOverflow (checkedAdd scan.outputSum (toBlock128 fee))
  reject (scan.inputSum ≠ expected) (.balanceMismatch scan.inputSum scan.outputSum fee)
  return {
    logicalTxid := hashPagedSpendUnchecked hashes pages
    inputOwner := first.body.inputOwner
    epochAnchor := first.body.epochAnchor
    fee
    liveInputs := BitVec.ofNat 16 scan.liveInputs
    liveOutputs := BitVec.ofNat 16 scan.liveOutputs
    inputSum := scan.inputSum
    outputSum := scan.outputSum }

end ParanoidChain
