import ParanoidChain.Chain.ApplyBlock
import ParanoidChain.Chain.SparseMerkle
import ParanoidChain.Consensus.Header

/-!
# Block consensus

`validate_block_consensus` in the order of its checks: header, resources, system records, page
stream, slot conflicts, fees, coinbase amount, and then the sequential state transition.
-/

namespace ParanoidChain

open Lib

/-- `page_stream_consensus_error`. -/
def pageStreamConsensusError : BlockPageStreamError → ConsensusError
  | .missingCoinbase => .missingCoinbase
  | .coinbaseNotFirst => .coinbaseNotFirst
  | .multipleCoinbase => .multipleCoinbase
  | .pagedSpend (.blockPageLimit actual capacity) =>
    .blockResourceLimitExceeded .userPages actual capacity
  | .pagedSpend (.tooManyGroups actual capacity) =>
    .blockResourceLimitExceeded .logicalTxs actual capacity
  | .pagedSpend (.blockInputLimit actual capacity) =>
    .blockResourceLimitExceeded .liveInputs actual capacity
  | .pagedSpend (.blockOutputLimit actual capacity) =>
    .blockResourceLimitExceeded .userOutputs actual capacity
  | .pagedSpend (.duplicateInputSlot _) => .slotConflict
  | .pagedSpend (.duplicateOutputSlot _) => .slotConflict
  | .pagedSpend (.inputOutputSlotOverlap _) => .slotConflict
  | other => .invalidPagedSpend (.stream other)

/-- The page stream under the consensus errors. -/
def checkPageStream (hashes : ChainHashes) (block : Block) :
    Except (Fault ConsensusError) BlockPageStreamFacts :=
  (validateBlockPageStream hashes.tx block.transactions).mapError fun error =>
    .err (pageStreamConsensusError error)

/-! ## Resources -/

/-- `BlockResourcePreflight`. -/
structure BlockResourcePreflight where
  userPageCount : Nat
  logicalTxCount : Nat
  liveInputCount : Nat
  outputCount : Nat
  actionCount : Nat
  touchedSlotCount : Nat
  distinctSegmentCount : Nat
  stateFrontierNodeCount : Nat
  deriving DecidableEq, Repr

/-- The accumulators of the record scan; the two sets are lists without repeats. -/
structure ResourceScan where
  liveInputCount : Nat
  outputCount : Nat
  touchedSlots : List Nat
  segments : List Nat
  deriving DecidableEq, Repr

namespace ResourceScan

def start : ResourceScan := ⟨0, 0, [], []⟩

/-- A live slot inside the domain joins the two sets. -/
def touch (scan : ResourceScan) (slotIndex : U32) : ResourceScan :=
  { scan with
    touchedSlots := scan.touchedSlots.insert slotIndex.toNat
    segments := scan.segments.insert (slotIndex.toNat / 2 ^ logSegmentSize) }

def scanInput (slotDomain : Nat) (scan : ResourceScan) (entry : Nat × TxInput) :
    Except ConsensusError ResourceScan := do
  reject (slotDomain ≤ entry.2.slotIndex.toNat) (.shapeMismatch .inputOutsideDomain)
  return { scan.touch entry.2.slotIndex with liveInputCount := scan.liveInputCount + 1 }

def scanOutput (slotDomain : Nat) (scan : ResourceScan) (entry : Nat × TxOutput) :
    Except ConsensusError ResourceScan := do
  reject (slotDomain ≤ entry.2.slotIndex.toNat) (.shapeMismatch .outputOutsideDomain)
  return { scan.touch entry.2.slotIndex with outputCount := scan.outputCount + 1 }

/-- One record: its inputs, its outputs, then the bound on segments. -/
def scanTx (slotDomain : Nat) (scan : ResourceScan) (tx : Transaction) :
    Except ConsensusError ResourceScan := do
  let scan ← tx.body.liveInputs.foldlM (scanInput slotDomain) scan
  let scan ← tx.body.liveOutputs.foldlM (scanOutput slotDomain) scan
  reject (blockMaxDistinctSegments < scan.segments.length)
    (.blockResourceLimitExceeded .distinctSegments scan.segments.length blockMaxDistinctSegments)
  return scan

/-- The bounds on the totals of the scan. -/
def checkTotals (scan : ResourceScan) : Except ConsensusError Unit := do
  reject (blockMaxLiveInputs < scan.liveInputCount)
    (.blockResourceLimitExceeded .liveInputs scan.liveInputCount blockMaxLiveInputs)
  reject (blockMaxUserOutputs + 1 < scan.outputCount)
    (.blockResourceLimitExceeded .outputs scan.outputCount (blockMaxUserOutputs + 1))
  let actionCount := scan.liveInputCount + scan.outputCount
  reject (blockMaxActions < actionCount)
    (.blockResourceLimitExceeded .actions actionCount blockMaxActions)

/-- The size of the multiproof frontier; the `expect` of the source is a panic. -/
def frontierNodeCount (scan : ResourceScan) (logSlots : Nat) : Option Nat :=
  if scan.touchedSlots = [] then some 0
  else (expectedSiblingCount (scan.touchedSlots.insertionSort (· ≤ ·)) logSlots).toOption

end ResourceScan

/-- `validate_block_resource_preflight`. -/
def validateBlockResourcePreflight (hashes : ChainHashes) (block : Block) :
    Except (Fault ConsensusError) BlockResourcePreflight := do
  reject (blockMaxTxs < block.transactions.length) (.err .tooManyTxs)
  let logSlots := block.header.logSlots.toNat
  reject (¬ (1 ≤ logSlots ∧ logSlots ≤ 32)) (.err (.shapeMismatch .logSlotsOutsideDomain))
  let stream ← checkPageStream hashes block
  let userPageCount := stream.pageCount.toNat
  reject (blockMaxUserPages < userPageCount)
    (.err (.blockResourceLimitExceeded .userPages userPageCount blockMaxUserPages))
  let scan ← (block.transactions.foldlM (ResourceScan.scanTx (2 ^ logSlots)) .start).mapError .err
  scan.checkTotals.mapError .err
  let stateFrontierNodeCount ← okOr .panic (scan.frontierNodeCount logSlots)
  return {
    userPageCount
    logicalTxCount := stream.logicalCount.toNat
    liveInputCount := scan.liveInputCount
    outputCount := scan.outputCount
    actionCount := scan.liveInputCount + scan.outputCount
    touchedSlotCount := scan.touchedSlots.length
    distinctSegmentCount := scan.segments.length
    stateFrontierNodeCount }

/-! ## System records -/

def o1NetworkFundAddress : Address :=
  ⟨0x78f6463b8a193f9bee580bc330630e8cfed70287b537950eebabad5474235b1c⟩

def parano1dLabAddress : Address :=
  ⟨0x402b636c3582da993fc43808376e6a52e591c2c2bfdc936187200d8dc7d02436⟩

/-- The contract of a due payout record: anchor, owners and amounts. -/
def validateDevelopmentPayout (expectedAnchor : Digest) (expectedAmount : Nat)
    (payout : Transaction) : Except ConsensusError Unit := do
  (validateBodySemanticsNoHash payout.body).mapError fun _ =>
    .shapeMismatch .developmentPayoutSemantics
  reject (payout.body.epochAnchor ≠ expectedAnchor) .badDevelopmentPayout
  let first := getElem payout.body.outputs 0 txOutputs_pos
  let second := getElem payout.body.outputs 1 one_lt_txOutputs
  reject (first.owner ≠ o1NetworkFundAddress ∨ second.owner ≠ parano1dLabAddress ∨
      first.amount.toNat ≠ expectedAmount ∨ second.amount.toNat ≠ expectedAmount)
    .badDevelopmentPayout

/-- The payout record is there exactly when one is due. -/
def validatePayoutPresence (expectedAnchor : Digest) (payoutEach : Option Nat)
    (hasDevelopmentPayout : Bool) (payout : Option Transaction) : Except (Fault ConsensusError) Unit :=
  match payoutEach, hasDevelopmentPayout with
  | some _, false => .error (.err .missingDevelopmentPayout)
  | none, true => .error (.err .unexpectedDevelopmentPayout)
  | none, false => pure ()
  | some expectedAmount, true => do
    let payout ← okOr .panic payout
    (validateDevelopmentPayout expectedAnchor expectedAmount payout).mapError .err

/-- `validate_mandatory_coinbase_with_schedule`. -/
def validateMandatoryCoinbaseWithSchedule (hashes : ChainHashes) (block : Block)
    (parent : BlockHeader) (schedule : ForkSchedule) : Except (Fault ConsensusError) Unit := do
  let expectedAnchor := hashes.blockId parent
  let stream ← checkPageStream hashes block
  let coinbase ← okOr .panic block.transactions[0]?
  (validateBodySemanticsNoHash coinbase.body).mapError fun error =>
    .err (.shapeMismatch (.coinbaseSemantics error))
  reject (coinbase.body.epochAnchor ≠ expectedAnchor) (.err .badCoinbaseAnchor)
  reject ((getElem coinbase.body.outputs 0 txOutputs_pos).owner ≠ block.header.minerAddress)
    (.err .badCoinbaseOwner)
  let allocation ← (developmentAllocationWithSchedule block.header.height.toNat
    block.header.logSlots.toNat schedule).mapError fun _ => .err .badDevelopmentPayout
  validatePayoutPresence expectedAnchor allocation.payoutEach stream.hasDevelopmentPayout
    block.transactions[1]?

/-- `validate_mandatory_coinbase`. -/
def validateMandatoryCoinbase (hashes : ChainHashes) (block : Block) (parent : BlockHeader) :
    Except (Fault ConsensusError) Unit :=
  validateMandatoryCoinbaseWithSchedule hashes block parent activeSchedule

/-! ## Fees and the coinbase amount -/

/-- What a group has to pay at the parent's occupancy. -/
def groupFee (parent : BlockHeader) (group : PagedSpendGroupFacts) : FeeBreakdown :=
  feeBreakdown group.spend.liveInputs.toNat group.spend.liveOutputs.toNat
    parent.activeSlotCount.toNat parent.logSlots.toNat

/-- One group: the minimum is paid, and what is not burned may be claimed. -/
def claimGroupFee (parent : BlockHeader) (claimable : U128) (group : PagedSpendGroupFacts) :
    Except ConsensusError U128 := do
  let breakdown := groupFee parent group
  let actual := group.spend.fee.toNat
  reject (actual < breakdown.requiredTotal) (.belowMinFee breakdown.requiredTotal actual)
  okOr (.shapeMismatch .claimableFeeSumOverflow)
    (checkedAdd claimable (BitVec.ofNat 128 (actual - breakdown.burned)))

/-- `validate_fee_policy_and_claimable_fee_sum`. -/
def validateFeePolicyAndClaimableFeeSum (hashes : ChainHashes) (block : Block)
    (parent : BlockHeader) : Except (Fault ConsensusError) U128 := do
  let stream ← checkPageStream hashes block
  (stream.groups.foldlM (claimGroupFee parent) 0).mapError .err

/-- `max_coinbase_value_from_claimable_fee_sum_with_schedule`. -/
def maxCoinbaseValueFromClaimableFeeSumWithSchedule (childHeight childLogSlots : Nat)
    (claimableFeeSum : U128) (schedule : ForkSchedule) : Except DevelopmentAllocationError Nat := do
  let allocation ← developmentAllocationWithSchedule childHeight childLogSlots schedule
  return allocation.minerSubsidy + claimableFeeSum.toNat

/-- The coinbase pays at most its subsidy and the claimable fees. -/
def validateCoinbaseAmount (block : Block) (coinbase : Transaction) (claimableFeeSum : U128) :
    Except (Fault ConsensusError) Unit :=
  if coinbase.body.isCoinbase = true then do
    let output ← okOr .panic coinbase.body.liveOutputs.head?
    let maxAllowed ← (maxCoinbaseValueFromClaimableFeeSumWithSchedule block.header.height.toNat
      block.header.logSlots.toNat claimableFeeSum activeSchedule).mapError fun _ => .panic
    reject (maxAllowed < output.2.amount.toNat) (.err .inflatedCoinbase)
  else pure ()

/-! ## The sequential interpreter -/

/-- The consensus error of an `apply_block` error. -/
def applyBlockConsensusError : BlockApplyError → ConsensusError
  | .tooManyTransactions => .tooManyTxs
  | .invalidTxBody => .shapeMismatch .invalidFixedBody
  | .invalidPagedSpend => .invalidPagedSpend .invalidBlockPageStream
  | .headerStateRootMismatch => .badStateRoot
  | .headerTxRootMismatch => .badTxRoot
  | other => .shapeMismatch (.applyBlock other)

/-- `validate_block_consensus`: the new state and the header's state root. -/
def validateBlockConsensus (hashes : ChainHashes) (block : Block) (parent : BlockHeader)
    (prevTimestamps finalizedActiveCounts : List U64) (localTime : U64) (anchor : AnchorInfo)
    (chain : ChainState) : Except (Fault ConsensusError) (ChainState × Digest) := do
  (validateHeader hashes block.header parent prevTimestamps finalizedActiveCounts localTime
    anchor).mapError .err
  let _ ← validateBlockResourcePreflight hashes block
  validateMandatoryCoinbase hashes block parent
  let _ ← checkPageStream hashes block
  (validateBlockSlotConflicts block.transactions).mapError .err
  let coinbase ← okOr .panic block.transactions[0]?
  (validateTxConsensus coinbase).mapError .err
  let claimableFeeSum ← validateFeePolicyAndClaimableFeeSum hashes block parent
  validateCoinbaseAmount block coinbase claimableFeeSum
  let (after, _) ← (chain.applyBlock hashes block).mapError fun
    | .err error => .err (applyBlockConsensusError error)
    | .panic => .panic
  return (after, block.header.stateRoot)

end ParanoidChain
