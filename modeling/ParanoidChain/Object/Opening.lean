import ParanoidChain.Object.IntegerProgram

/-!
# Contract objects

An opening is what the holder of a contract keeps; the state slot holds only its root. `checkCall`
is the native preflight of one call: the opening is valid, the page is a valid one-page spend of the
object's root in the shape of a call, the committed spending rules hold, the program runs, and
output zero carries the successor (or, in a closing call, pays the deadline-selected recipient).
-/

namespace ParanoidChain

open Lib

def claimContinue : BitVec 8 := 1
def claimClose : BitVec 8 := 2
def recoveryContinue : BitVec 8 := 4
def recoveryClose : BitVec 8 := 8
/-- `ANY_PAYOUT_RECIPIENT`: a continuing payment may choose its own recipient. -/
def anyPayoutRecipient : BitVec 8 := 16
def validModes : BitVec 8 := 31
def objectVersion : Block128 := 3

/-- The committed spending rules. -/
structure ObjectRules where
  maxFee : U64
  minRetained : U64
  maxPayout : U64
  modes : BitVec 8
  deriving DecidableEq, Repr

inductive ObjectError where
  | encoding
  | version
  | opcode (step : Nat)
  | shape
  | oldObject
  | successor
  | recipient
  | balance
  | policy
  | feeLimit
  | reserveLimit
  | payoutLimit
  | program (error : ProgramError)
  | page (error : PagedSpendError)
  deriving DecidableEq, Repr

namespace ObjectRules

def validate (rules : ObjectRules) : Except ObjectError Unit :=
  reject ((rules.modes &&& ~~~validModes) ≠ 0) .policy

/-- The four lanes the policy commitment absorbs. -/
def fields (rules : ObjectRules) : Block128 × Block128 × Block128 × Block128 :=
  (toBlock128 rules.maxFee, toBlock128 rules.minRetained, toBlock128 rules.maxPayout,
    toBlock128 rules.modes)

/-- The mode bit that allows a call on one side of the deadline. -/
def modeBit (beforeDeadline terminal : Bool) : BitVec 8 :=
  match beforeDeadline, terminal with
  | true, false => claimContinue
  | true, true => claimClose
  | false, false => recoveryContinue
  | false, true => recoveryClose

def permits (rules : ObjectRules) (beforeDeadline terminal : Bool) : Bool :=
  (rules.modes &&& modeBit beforeDeadline terminal) != 0

end ObjectRules

/-- The current opening of an object. -/
structure ObjectOpening where
  program : Program
  state : Block128
  claimAuthority : Address
  recoveryAuthority : Address
  deadline : U64
  claimRecipient : Address
  recoveryRecipient : Address
  rules : ObjectRules
  deriving DecidableEq, Repr

/-- What an accepted call hands to the block relation. -/
structure CheckedTransition where
  next : Block128
  contexts : List Block128
  authority : Address
  terminal : Bool
  deriving DecidableEq, Repr

/-- The eight body lanes bound to a contract witness. -/
def transactionContexts (body : TxBody) : List Block128 :=
  let leaf (index : Nat) := (bodyHashLeaves body).getD index (0, 0)
  [(leaf 0).1, (leaf 0).2, (leaf 1).1, (leaf 11).2, (leaf 13).2, (leaf 14).1, (leaf 14).2,
    (leaf 15).1]

namespace ObjectOpening

def validate (opening : ObjectOpening) : Except ObjectError Unit := do
  opening.rules.validate
  forM opening.program.toList.zipIdx fun (instruction, step) =>
    reject ((Instruction.fromFields instruction).isNone = true) (.opcode step)

def codeId (hashes : TxHashes) (opening : ObjectOpening) : Digest :=
  hashes.sponge .contractCode opening.program.toList

/-- The root a state slot holds: policy commitment, then current state. -/
def root (hashes : TxHashes) (opening : ObjectOpening) : Address :=
  let code := digestFields (opening.codeId hashes)
  let claim := opening.claimAuthority.asFields
  let recovery := opening.recoveryAuthority.asFields
  let recipient := opening.claimRecipient.asFields
  let refund := opening.recoveryRecipient.asFields
  let (maxFee, minRetained, maxPayout, modes) := opening.rules.fields
  let policy := hashes.sponge .contractPolicy
    [code, (toBlock128 opening.deadline, claim.1), (claim.2, recovery.1),
      (recovery.2, recipient.1), (recipient.2, refund.1), (refund.2, objectVersion),
      (maxFee, minRetained), (maxPayout, modes)]
  ⟨hashes.sponge .contractObject [digestFields policy, (opening.state, 0)]⟩

def authorityAt (opening : ObjectOpening) (height : U64) : Address :=
  if height < opening.deadline then opening.claimAuthority else opening.recoveryAuthority

def recipientAt (opening : ObjectOpening) (height : U64) : Address :=
  if height < opening.deadline then opening.claimRecipient else opening.recoveryRecipient

def successor (opening : ObjectOpening) (next : Block128) : ObjectOpening :=
  { opening with state := next }

def execute (opening : ObjectOpening) (body : TxBody) (height : U64) :
    Except ObjectError Block128 := do
  opening.validate
  (IntegerProgram.execute opening.program opening.state
    (Context.fromBody body height opening.deadline)).mapError .program

/-- The liveness and marker bits of a call page, the optional second output aside. -/
def callBitmap : U16 :=
  1 ||| outputBitmapBit 0 ||| pagedSpendStartBit ||| pagedSpendEndBit ||| pagedSpendContractBit

/-- Whether a page closes its object. -/
def isTerminalCall (body : TxBody) : Bool := (body.validityBitmap &&& pagedSpendTerminalBit) != 0

/-- The spending rules of a continuing call; a closing call has none of its own. -/
def checkContinuing (opening : ObjectOpening) (body : TxBody) (height : U64) (terminal : Bool) :
    Except ObjectError Unit :=
  if terminal then .ok () else do
    reject ((getElem body.outputs 0 txOutputs_pos).amount < opening.rules.minRetained) .reserveLimit
    reject (opening.rules.maxPayout < (getElem body.outputs 1 one_lt_txOutputs).amount) .payoutLimit
    reject ((body.validityBitmap &&& outputBitmapBit 1) ≠ 0 ∧
        (opening.rules.modes &&& anyPayoutRecipient) = 0 ∧
        (getElem body.outputs 1 one_lt_txOutputs).owner ≠ opening.recipientAt height) .recipient

/-- Who output zero belongs to: the recipient of a closing call, else the successor object. -/
def checkOutputZero (hashes : TxHashes) (opening : ObjectOpening) (body : TxBody) (height : U64)
    (terminal : Bool) (next : Block128) : Except ObjectError Unit :=
  if terminal then
    reject ((getElem body.outputs 0 txOutputs_pos).owner ≠ opening.recipientAt height) .recipient
  else
    reject ((getElem body.outputs 0 txOutputs_pos).owner ≠ (opening.successor next).root hashes)
      .successor

/-- Native preflight of one call at one inclusion height. -/
def checkCall (hashes : TxHashes) (opening : ObjectOpening) (page : TxPage) (height : U64) :
    Except ObjectError CheckedTransition := do
  opening.validate
  let _ ← (validatePagedSpend hashes [page]).mapError .page
  let body := page.body
  let terminal := isTerminalCall body
  let expected := callBitmap |||
    if terminal then pagedSpendTerminalBit else body.validityBitmap &&& outputBitmapBit 1
  reject (body.isCoinbase = true ∨ body.validityBitmap ≠ expected) .shape
  reject (body.inputOwner ≠ opening.root hashes) .oldObject
  reject (opening.rules.permits (decide (height < opening.deadline)) terminal = false) .policy
  reject (opening.rules.maxFee < body.fee) .feeLimit
  opening.checkContinuing body height terminal
  let next ← opening.execute body height
  opening.checkOutputZero hashes body height terminal next
  return { next, contexts := transactionContexts body, authority := opening.authorityAt height,
           terminal }

/-- What output zero of a call keeps: the input less the fee and the payout. -/
def retainedAmount (input : TxInput) (fee : U64) (payout : Option TxOutput) : Option U64 := do
  let afterFee ← checkedSub input.amount fee
  checkedSub afterFee (payout.elim 0 (·.amount))

/-- The call page before its first output has an owner. -/
def draftCall (hashes : TxHashes) (opening : ObjectOpening) (input : TxInput) (outputSlot : U32)
    (retained : U64) (fee : U64) (epochAnchor : Digest) (terminal : Bool)
    (payout : Option TxOutput) : TxBody where
  epochAnchor := epochAnchor
  fee := fee
  inputOwner := opening.root hashes
  inputs := (Vector.replicate txInputs TxInput.dummy).set 0 input txInputs_pos
  outputs := #v[⟨outputSlot, retained, .zero⟩, payout.getD .dummy]
  validityBitmap := callBitmap ||| (if payout.isSome then outputBitmapBit 1 else 0) |||
    (if terminal then pagedSpendTerminalBit else 0)
  isCoinbase := false

/-- The owner of output zero in a call under construction. -/
def draftOwner (hashes : TxHashes) (opening : ObjectOpening) (draft : TxBody) (height : U64)
    (terminal : Bool) : Except ObjectError Address :=
  if terminal then return opening.recipientAt height
  else return (opening.successor (← opening.execute draft height)).root hashes

/-- Build one call page and check it. -/
def buildCallInner (hashes : TxHashes) (opening : ObjectOpening) (input : TxInput)
    (outputSlot : U32) (fee : U64) (epochAnchor : Digest) (height : U64) (terminal : Bool)
    (payout : Option TxOutput) : Except ObjectError TxPage := do
  opening.validate
  let retained ← okOr .balance (retainedAmount input fee payout)
  let draft := opening.draftCall hashes input outputSlot retained fee epochAnchor terminal payout
  let owner ← opening.draftOwner hashes draft height terminal
  let body := { draft with
    outputs := draft.outputs.set 0 { getElem draft.outputs 0 txOutputs_pos with owner } txOutputs_pos }
  let page ← (TxPage.new body).mapError .page
  let _ ← opening.checkCall hashes page height
  return page

/-- One input, one output. -/
def buildCall (hashes : TxHashes) (opening : ObjectOpening) (input : TxInput) (outputSlot : U32)
    (fee : U64) (epochAnchor : Digest) (height : U64) (terminal : Bool) :
    Except ObjectError TxPage :=
  opening.buildCallInner hashes input outputSlot fee epochAnchor height terminal none

/-- A payment that keeps the successor object in output zero. -/
def buildPayment (hashes : TxHashes) (opening : ObjectOpening) (input : TxInput)
    (successorSlot : U32) (fee : U64) (epochAnchor : Digest) (height : U64) (payout : TxOutput) :
    Except ObjectError TxPage :=
  opening.buildCallInner hashes input successorSlot fee epochAnchor height false (some payout)

end ObjectOpening

end ParanoidChain
