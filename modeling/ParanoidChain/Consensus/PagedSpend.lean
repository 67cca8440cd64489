import ParanoidChain.Consensus.Params
import ParanoidChain.Tx.PagedSpend

/-!
# The page stream of a block

The user records of a block are one stream of pages, cut after every page that carries the END bit.
Proof class and capacities count pages; fees, txids and authorizations count groups.

The loop of `validate_stream_for_class` finds the next END page, validates the group up to it and
moves its cursor behind it.
-/

namespace ParanoidChain

open Lib

/-- `BlockProofClass`: the two block sizes. -/
inductive BlockProofClass where
  | b25
  | b255
  deriving DecidableEq, Repr

namespace BlockProofClass

/-- The smallest class that holds so many pages. -/
def forPageCount (pageCount : Nat) : Option BlockProofClass :=
  if pageCount ≤ 25 then some .b25
  else if pageCount ≤ blockMaxUserPages then some .b255
  else none

def pageCapacity : BlockProofClass → Nat
  | .b25 => 25
  | .b255 => blockMaxUserPages

def liveAuthorizationCapacity (proofClass : BlockProofClass) : Nat := proofClass.pageCapacity

def inputCapacity : BlockProofClass → Nat
  | .b25 => 25 * txInputs
  | .b255 => blockMaxLiveInputs

def outputCapacity : BlockProofClass → Nat
  | .b25 => 25 * txOutputs
  | .b255 => blockMaxUserOutputs

end BlockProofClass

/-- One validated group and where it stands in the stream. -/
structure PagedSpendGroupFacts where
  startPage : U16
  pageCount : U16
  spend : PagedSpendFacts
  deriving DecidableEq, Repr

/-- `PagedSpendStreamFacts`. -/
structure PagedSpendStreamFacts where
  proofClass : BlockProofClass
  groups : List PagedSpendGroupFacts
  pageCount : U16
  logicalCount : U16
  liveInputs : U16
  liveOutputs : U16
  deriving DecidableEq, Repr

inductive PagedSpendStreamError where
  | group (error : PagedSpendError)
  | blockPageLimit (actual capacity : Nat)
  | proofClassMismatch (expected actual : BlockProofClass)
  | unterminatedGroup (startPage : Nat)
  | tooManyGroups (actual capacity : Nat)
  | blockInputLimit (actual capacity : Nat)
  | blockOutputLimit (actual capacity : Nat)
  | duplicateInputSlot (slot : U32)
  | duplicateOutputSlot (slot : U32)
  | inputOutputSlotOverlap (slot : U32)
  deriving DecidableEq, Repr

/-- `PageBody`: what a stream may be made of. -/
class PageBody (α : Type) where
  txPage : α → TxPage
  pageBody : α → TxBody

instance : PageBody TxPage := ⟨id, TxPage.body⟩

instance : PageBody Transaction := ⟨fun tx => ⟨tx.body⟩, Transaction.body⟩

section Stream

variable {α : Type} [PageBody α] (hashes : TxHashes)

/-- The END bit of a page of the stream. -/
def endsGroup (page : α) : Bool :=
  ((PageBody.pageBody page).validityBitmap &&& pagedSpendEndBit) != 0

/-- One group of the loop: `cursor` pages lie before it. -/
def pushGroup (proofClass : BlockProofClass) (found : Nat × List PagedSpendGroupFacts)
    (pages : List α) : Except PagedSpendStreamError (Nat × List PagedSpendGroupFacts) := do
  let spend ← (validatePagedSpend hashes (pages.map PageBody.txPage)).mapError .group
  let groups := found.2 ++
    [{ startPage := BitVec.ofNat 16 found.1, pageCount := BitVec.ofNat 16 pages.length, spend }]
  reject (proofClass.liveAuthorizationCapacity < groups.length)
    (.tooManyGroups groups.length proofClass.liveAuthorizationCapacity)
  return (found.1 + pages.length, groups)

/-- `while cursor < pages.len()`: every round consumes a page, so the length bounds the rounds. -/
def groupLoop (proofClass : BlockProofClass) (pages : List α) :
    Nat → Nat × List PagedSpendGroupFacts →
      Except PagedSpendStreamError (Nat × List PagedSpendGroupFacts)
  | 0, found => pure found
  | rounds + 1, found =>
    if found.1 < pages.length then do
      let rest := pages.drop found.1
      let relativeEnd ← okOr (.unterminatedGroup found.1) (rest.findIdx? endsGroup)
      let found ← pushGroup hashes proofClass found (rest.take (relativeEnd + 1))
      groupLoop proofClass pages rounds found
    else pure found

/-- The slots of one page, in two sets for the whole block. -/
def collectPageSlots (seen : List U32 × List U32) (page : α) :
    Except PagedSpendStreamError (List U32 × List U32) := do
  let inputSlots ← (PageBody.pageBody page).liveInputs.foldlM (fun seen entry =>
    insertFresh (.duplicateInputSlot entry.2.slotIndex) seen entry.2.slotIndex) seen.1
  let outputSlots ← (PageBody.pageBody page).liveOutputs.foldlM (fun seen entry =>
    insertFresh (.duplicateOutputSlot entry.2.slotIndex) seen entry.2.slotIndex) seen.2
  return (inputSlots, outputSlots)

/-- `validate_stream_for_class`. -/
def validateStreamForClass (pages : List α) (proofClass : BlockProofClass) :
    Except PagedSpendStreamError PagedSpendStreamFacts := do
  reject (proofClass.pageCapacity < pages.length)
    (.blockPageLimit pages.length proofClass.pageCapacity)
  let expected ← okOr (.blockPageLimit pages.length blockMaxUserPages)
    (BlockProofClass.forPageCount pages.length)
  reject (expected ≠ proofClass) (.proofClassMismatch expected proofClass)
  let (_, groups) ← groupLoop hashes proofClass pages pages.length (0, [])
  let liveInputs := (groups.map fun group => group.spend.liveInputs.toNat).sum
  reject (proofClass.inputCapacity < liveInputs)
    (.blockInputLimit liveInputs proofClass.inputCapacity)
  let liveOutputs := (groups.map fun group => group.spend.liveOutputs.toNat).sum
  reject (proofClass.outputCapacity < liveOutputs)
    (.blockOutputLimit liveOutputs proofClass.outputCapacity)
  let slots ← pages.foldlM collectPageSlots ([], [])
  rejectSome (slots.1.find? (· ∈ slots.2)) .inputOutputSlotOverlap
  return {
    proofClass
    groups
    pageCount := BitVec.ofNat 16 pages.length
    logicalCount := BitVec.ofNat 16 groups.length
    liveInputs := BitVec.ofNat 16 liveInputs
    liveOutputs := BitVec.ofNat 16 liveOutputs }

/-- The stream under the class its length selects; both public entry points, for the records of a
block and for wallet pages, are this function at their type. -/
def validatePagedSpendStream (pages : List α) :
    Except PagedSpendStreamError PagedSpendStreamFacts := do
  let proofClass ← okOr (.blockPageLimit pages.length blockMaxUserPages)
    (BlockProofClass.forPageCount pages.length)
  validateStreamForClass hashes pages proofClass

end Stream

/-- `validate_paged_spend_transaction_stream`. -/
def validatePagedSpendTransactionStream (hashes : TxHashes) (pages : List Transaction) :
    Except PagedSpendStreamError PagedSpendStreamFacts :=
  validatePagedSpendStream hashes pages

end ParanoidChain
