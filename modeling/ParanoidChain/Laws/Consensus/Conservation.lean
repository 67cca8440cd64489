import ParanoidChain.Consensus.Validation
import ParanoidChain.Laws.Chain.Run

/-!
# Value conservation

Every group of pages pays out what it takes in, less its fee, so an accepted block moves the supply
by the coinbase, plus the development payout when one is due, minus the fees of its groups. The
coinbase may claim its subsidy and the part of the fees that is not burned, and no more.
-/

namespace ParanoidChain

open Lib

/-! ## Groups -/

/-- What the groups of a stream pay. -/
def feeSum (groups : List PagedSpendGroupFacts) : Nat :=
  (groups.map (·.spend.fee.toNat)).sum

/-- The part of it that is burned. -/
def burnedSum (parent : BlockHeader) (groups : List PagedSpendGroupFacts) : Nat :=
  (groups.map fun group => (groupFee parent group).burned).sum

/-- What the live inputs of some bodies take in. -/
def inputSum (bodies : List TxBody) : Nat := ((bodies.flatMap TxBody.spends).map (·.amount.toNat)).sum

/-- What their live outputs pay out. -/
def outputSum (bodies : List TxBody) : Nat := ((bodies.flatMap TxBody.mints).map (·.amount.toNat)).sum

@[simp] theorem inputSum_append (first second : List TxBody) :
    inputSum (first ++ second) = inputSum first + inputSum second := by
  simp [inputSum]

@[simp] theorem outputSum_append (first second : List TxBody) :
    outputSum (first ++ second) = outputSum first + outputSum second := by
  simp [outputSum]

variable {hashes : TxHashes}

/-- A group balances as a whole. -/
theorem ValidGroup.balanced {pages : List Transaction} {group : PagedSpendGroupFacts}
    (valid : ValidGroup hashes pages group) :
    inputSum (pages.map Transaction.body) =
      outputSum (pages.map Transaction.body) + group.spend.fee.toNat := by
  have balance := valid.balance
  simp only [List.flatMap_map, PageBody.txPage] at balance
  simpa only [inputSum, outputSum, List.flatMap_map] using balance

/-- So do the user pages of a block. -/
theorem groups_balanced {groupPages : List (List Transaction)} {groups : List PagedSpendGroupFacts}
    (valid : List.Forall₂ (ValidGroup hashes) groupPages groups) :
    inputSum (groupPages.flatten.map Transaction.body) =
      outputSum (groupPages.flatten.map Transaction.body) + feeSum groups := by
  induction valid with
  | nil => rfl
  | @cons pages group _ groups here _ ih =>
    have fees : feeSum (group :: groups) = group.spend.fee.toNat + feeSum groups := rfl
    rw [List.flatten_cons, List.map_append, inputSum_append, outputSum_append, here.balanced, ih,
      fees]
    omega

/-! ## Fees -/

theorem burned_le_requiredTotal (parent : BlockHeader) (group : PagedSpendGroupFacts) :
    (groupFee parent group).burned ≤ (groupFee parent group).requiredTotal := by
  simp only [groupFee, feeBreakdown, saturatingAdd, saturatingMul]
  omega

/-- What may be claimed and what is burned together are the fees. -/
theorem claimed_add_burned {parent : BlockHeader} {groups : List PagedSpendGroupFacts}
    {start claimable : U128} (ok : groups.foldlM (claimGroupFee parent) start = .ok claimable) :
    claimable.toNat + burnedSum parent groups = start.toNat + feeSum groups := by
  induction groups generalizing start with
  | nil =>
    obtain rfl : start = claimable := by simpa using ok
    rfl
  | cons group rest ih =>
    obtain ⟨next, here, rest⟩ := foldlM_cons_eq_ok.mp ok
    simp only [claimGroupFee, bind_eq_ok, reject_eq_ok, okOr_eq_ok, checkedAdd_eq_some,
      exists_const] at here
    obtain ⟨paid, moved⟩ := here
    have later := ih rest
    have part := burned_le_requiredTotal parent group
    have fee := group.spend.fee.isLt
    rw [toNat_ofNat_of_lt (by omega)] at moved
    simp only [burnedSum, feeSum, List.map_cons, List.sum_cons] at later ⊢
    omega

/-! ## System records -/

/-- What a due payout mints. -/
def DevelopmentAllocation.payoutTotal (allocation : DevelopmentAllocation) : Nat :=
  2 * allocation.payoutEach.getD 0

theorem outputSum_primary {coinbase : TxBody} (shape : coinbase.isPrimaryCoinbaseShape = true) :
    outputSum [coinbase] = coinbase.outputs[0].amount.toNat := by
  simp [outputSum, TxBody.mints_primary shape]

/-- The payout records mint what the allocation says. -/
theorem outputSum_payouts {hashes : ChainHashes} {block : Block} {parent : BlockHeader}
    {coinbase : Transaction} {payouts users : List Transaction} {stream : BlockPageStreamFacts}
    (ok : validateMandatoryCoinbase hashes block parent = .ok ())
    (accepted : checkPageStream hashes block = .ok stream)
    (layout : block.transactions = coinbase :: (payouts ++ users))
    (valid : ValidStream hashes.tx coinbase payouts users stream) :
    ∃ allocation, developmentAllocationWithSchedule block.header.height.toNat
        block.header.logSlots.toNat activeSchedule = .ok allocation ∧
      outputSum (payouts.map Transaction.body) = allocation.payoutTotal := by
  simp only [validateMandatoryCoinbase, validateMandatoryCoinbaseWithSchedule, accepted, bind_eq_ok,
    okOr_eq_ok, reject_eq_ok, mapError_ok_iff, exists_const, Except.ok.injEq, exists_eq_left'] at ok
  obtain ⟨_, -, _, -, -, -, allocation, found, present⟩ := ok
  refine ⟨allocation, found, ?_⟩
  have count := valid.payouts_length
  cases due : allocation.payoutEach with
  | none =>
    cases has : stream.hasDevelopmentPayout with
    | true => simp [validatePayoutPresence, due, has] at present
    | false =>
      rw [has] at count
      rw [List.eq_nil_of_length_eq_zero count]
      simp [outputSum, DevelopmentAllocation.payoutTotal, due]
  | some each =>
    cases has : stream.hasDevelopmentPayout with
    | false => simp [validatePayoutPresence, due, has] at present
    | true =>
      rw [has] at count
      obtain ⟨payout, rfl⟩ := List.length_eq_one_iff.mp count
      have shape := valid.payout payout (by simp)
      simp only [validatePayoutPresence, due, has, layout, validateDevelopmentPayout, bind_eq_ok,
        okOr_eq_ok, reject_eq_ok, mapError_ok_iff, exists_const, List.getElem?_cons_succ,
        List.singleton_append, List.getElem?_cons_zero, Option.some.injEq, exists_eq_left',
        not_or, not_not] at present
      obtain ⟨_, -, -, -, -, first, second⟩ := present
      simp [outputSum, TxBody.mints_payout shape, DevelopmentAllocation.payoutTotal, due, first,
        second]
      omega

/-! ## The block -/

section Block

variable {hashes : ChainHashes} {block : Block} {parent : BlockHeader}
  {prevTimestamps finalizedActiveCounts : List U64} {localTime : U64} {anchor : AnchorInfo}
  {chain after : ChainState} {root : Digest} {slots : Nat → SlotValue}

theorem amountOf_minted (output : TxOutput) (creationId : U64) (_ : creationId ≠ 0) :
    amountOf (output.minted creationId) = output.amount.toNat := by
  simp [amountOf, TxOutput.minted]

theorem sum_amountOf_claims (bodies : List TxBody) :
    ((bodies.flatMap TxBody.claims).map amountOf).sum = inputSum bodies := by
  have each (body : TxBody) : body.claims.map amountOf = body.spends.map (·.amount.toNat) := by
    simp [TxBody.claims, amountOf, TxInput.claimed, Function.comp_def]
  simp only [inputSum, List.map_flatMap, each]

/-- The coinbase takes no more than its subsidy and the fees that are not burned. -/
theorem coinbase_le {coinbase : Transaction} {claimable : U128}
    {allocation : DevelopmentAllocation} (shape : coinbase.body.isPrimaryCoinbaseShape = true)
    (found : developmentAllocationWithSchedule block.header.height.toNat
      block.header.logSlots.toNat activeSchedule = .ok allocation)
    (ok : validateCoinbaseAmount block coinbase claimable = .ok ()) :
    coinbase.body.outputs[0].amount.toNat ≤ allocation.minerSubsidy + claimable.toNat := by
  have first : coinbase.body.liveOutputs.head?.map Prod.snd = some coinbase.body.outputs[0] := by
    rw [← List.head?_map]
    exact congrArg List.head? (TxBody.mints_primary shape)
  obtain ⟨entry, head, same⟩ := Option.map_eq_some_iff.mp first
  simp only [validateCoinbaseAmount, (TxBody.bitmap_of_primary shape).1, if_true, head, bind_eq_ok,
    okOr_eq_ok, mapError_ok_iff, reject_eq_ok, maxCoinbaseValueFromClaimableFeeSumWithSchedule,
    found, pure_eq_ok, Option.some.injEq, Except.ok.injEq, exists_eq_left', same] at ok
  omega

section Applied

variable (applied : ChainState.AppliedBlock hashes slots chain after block)
  (rep : chain.state.Represents hashes.state slots)
  (settled : chain.circulatingSupplyMicronoid.toNat =
    total amountOf slots (2 ^ chain.state.logSlots))
include applied rep settled

/-- Applying a block moves the sum of the amounts by its records. -/
theorem ChainState.AppliedBlock.supply_moved :
    after.circulatingSupplyMicronoid.toNat + inputSum block.bodies =
      chain.circulatingSupplyMicronoid.toNat + outputSum block.bodies := by
  have low := applied.alloc_lt
  rw [applied.alloc_eq] at low
  have moved := total_blockWrites amountOf_empty amountOf_minted applied.distinct applied.accepted
    applied.inside low
  rw [sum_amountOf_claims] at moved
  have wider := applied.total_wider rep amountOf_empty
  have supply := applied.supply_eq
  simp only [outputSum]
  omega

/-- An applied block whose system records, fees and coinbase amount were checked moves the supply by
coinbase, payout and fees. -/
theorem ChainState.AppliedBlock.conserves {stream : BlockPageStreamFacts} {coinbase : Transaction}
    {claimable : U128} (mandatory : validateMandatoryCoinbase hashes block parent = .ok ())
    (accepted : checkPageStream hashes block = .ok stream)
    (first : block.transactions[0]? = some coinbase)
    (fees : validateFeePolicyAndClaimableFeeSum hashes block parent = .ok claimable)
    (amount : validateCoinbaseAmount block coinbase claimable = .ok ()) :
    ∃ allocation, developmentAllocationWithSchedule block.header.height.toNat
        block.header.logSlots.toNat activeSchedule = .ok allocation ∧
      after.circulatingSupplyMicronoid.toNat + feeSum stream.groups =
        chain.circulatingSupplyMicronoid.toNat + coinbase.body.outputs[0].amount.toNat +
          allocation.payoutTotal ∧
      after.circulatingSupplyMicronoid.toNat + burnedSum parent stream.groups ≤
        chain.circulatingSupplyMicronoid.toNat + allocation.minerSubsidy +
          allocation.payoutTotal := by
  obtain ⟨head, payouts, users, layout, valid⟩ := validateBlockPageStream_valid
    (by simpa only [checkPageStream, mapError_ok_iff] using accepted)
  obtain rfl : head = coinbase := by simpa [layout] using first
  obtain ⟨groupPages, rfl, groups⟩ := valid.groups
  obtain ⟨allocation, found, paid⟩ := outputSum_payouts mandatory accepted layout valid
  simp only [validateFeePolicyAndClaimableFeeSum, accepted, bind_eq_ok, mapError_ok_iff,
    Except.ok.injEq, exists_eq_left'] at fees
  have claimed := claimed_add_burned fees
  have subsidy := coinbase_le valid.primary found amount
  have moved := applied.supply_moved rep settled
  have balanced := groups_balanced groups
  -- only the groups spend; the system records mint
  have bodies : block.bodies = [head.body] ++ payouts.map Transaction.body ++
      groupPages.flatten.map Transaction.body := by
    simp [Block.bodies, layout]
  have noInputs : inputSum (payouts.map Transaction.body) = 0 := by
    have none : (payouts.map Transaction.body).flatMap TxBody.spends = [] := by
      rw [List.flatMap_map, List.flatMap_eq_nil_iff]
      exact fun tx member => TxBody.spends_payout (valid.payout tx member)
    rw [inputSum, none]
    rfl
  have noInput : inputSum [head.body] = 0 := by
    simp [inputSum, TxBody.spends_primary valid.primary]
  rw [bodies] at moved
  simp only [inputSum_append, outputSum_append, noInput, noInputs, outputSum_primary valid.primary,
    paid, balanced] at moved
  have zero : (0 : U128).toNat = 0 := rfl
  rw [zero] at claimed
  exact ⟨allocation, found, by omega, by omega⟩

end Applied

/-- An accepted block writes its records over the slots, keeps the supply equal to their sum, moves
it by coinbase, payout and fees, and so raises it by no more than the subsidies less what is
burned. -/
theorem validateBlockConsensus_conserves (rep : chain.state.Represents hashes.state slots)
    (settled : chain.circulatingSupplyMicronoid.toNat =
      total amountOf slots (2 ^ chain.state.logSlots))
    (ok : validateBlockConsensus hashes block parent prevTimestamps finalizedActiveCounts localTime
      anchor chain = .ok (after, root)) :
    after.state.Represents hashes.state
        (overlay slots (blockWrites block.header.height chain.allocCounter.toNat block.bodies)) ∧
      after.circulatingSupplyMicronoid.toNat = total amountOf
        (overlay slots (blockWrites block.header.height chain.allocCounter.toNat block.bodies))
        (2 ^ after.state.logSlots) ∧
      ∃ coinbase stream allocation,
        block.transactions.head? = some coinbase ∧
        validateBlockPageStream hashes.tx block.transactions = .ok stream ∧
        developmentAllocationWithSchedule block.header.height.toNat block.header.logSlots.toNat
          activeSchedule = .ok allocation ∧
        after.circulatingSupplyMicronoid.toNat + feeSum stream.groups =
          chain.circulatingSupplyMicronoid.toNat + coinbase.body.outputs[0].amount.toNat +
            allocation.payoutTotal ∧
        after.circulatingSupplyMicronoid.toNat + burnedSum parent stream.groups ≤
          chain.circulatingSupplyMicronoid.toNat + allocation.minerSubsidy +
            allocation.payoutTotal := by
  simp only [validateBlockConsensus, bind_eq_ok, mapError_ok_iff, okOr_eq_ok, pure_eq_ok,
    Prod.exists] at ok
  obtain ⟨_, -, _, -, _, mandatory, stream, accepted, _, -, coinbase, first, _, -, claimable, fees,
    _, amount, _, _, run, same⟩ := ok
  obtain ⟨rfl, -⟩ := Prod.mk.inj same
  have applied := ChainState.applyBlock_ok rep run
  obtain ⟨allocation, found, moved, bound⟩ :=
    applied.conserves rep settled mandatory accepted first fees amount
  refine ⟨applied.rep, applied.settled settled, coinbase, stream, allocation, ?_, ?_,
    found, moved, bound⟩
  · rw [List.head?_eq_getElem?, first]
  · simpa only [checkPageStream, mapError_ok_iff] using accepted

end Block

/-! ## Sample blocks -/

/-- A header of height zero over an empty state. -/
def sampleGenesis (logSlots : U32) : BlockHeader where
  prevBlockHash := 0
  stateRoot := ChainHashes.sample.state.zeroSlotRoot logSlots.toNat
  txRoot := 0
  timestamp := 100
  height := 0
  minerAddress := .zero
  nonce := 0
  difficultyTarget := 0
  logSlots
  activeSlotCount := 0
  allocCounter := 0

/-- What goes into a sample block. -/
structure SampleStep where
  logSlots : U32
  nonce : U128
  reward : TxBody
  pages : List TxBody

/-- The block of a step over a parent and its state, twenty seconds later. -/
def SampleStep.block (step : SampleStep) (parent : BlockHeader) (chain : ChainState) :
    Except (Fault BlockApplyError) Block := do
  let prevBlockHash := ChainHashes.sample.blockId parent
  let height := parent.height + 1
  let timestamp := parent.timestamp + 20
  let coinbase := { step.reward with epochAnchor := prevBlockHash }
  let block ← chain.templateOn .sample height step.logSlots
    ((coinbase :: step.pages).map Transaction.mk)
  let difficultyTarget := nextTargetWithSchedule 0 100 genesisTarget height.toNat
    parent.timestamp.toNat timestamp.toNat activeSchedule
  let header := { block.header with
    prevBlockHash
    timestamp
    nonce := step.nonce
    difficultyTarget }
  return { block with header }

/-- Its validation, with a full window of the given occupancy. -/
def acceptSample (occupancy : U64) (parent : BlockHeader) (chain : ChainState) (block : Block) :
    Except (Fault ConsensusError) (ChainState × Digest) :=
  validateBlockConsensus .sample block parent [parent.timestamp]
    (List.replicate expansionWindow occupancy) block.header.timestamp ⟨0, 100, genesisTarget⟩ chain

/-- A one-page spend of one input into two outputs. -/
def splitBody (input : TxInput) (first second : TxOutput) (fee : U64) : TxBody :=
  { ChainState.moveBody input first fee with
    outputs := #v[first, second]
    validityBitmap := 1 ||| outputBitmapBit 0 ||| outputBitmapBit 1 ||| pagedSpendMarkerMask }

/-- A reward into slot 0. -/
def fundingStep (nonce : U128) : SampleStep :=
  ⟨2, nonce, ChainState.rewardBody 0 1000000, []⟩

/-- A reward into slot 1 beside a payment that splits slot 0 over the slots 2 and 3 and pays the
growth of the state, which is burned. -/
def splittingStep (nonce : U128) : SampleStep :=
  ⟨2, nonce, ChainState.rewardBody 1 506500, [splitBody ⟨0, 1000000, coinbaseCreationId 1⟩
    ⟨2, 600000, ⟨9⟩⟩ ⟨3, 391000, ⟨8⟩⟩ 9000]⟩

/-- Both validate, one on top of the other: 9000 leave the supply as fees, of which 2500 are burned,
and the coinbase brings 506500. -/
theorem validateBlockConsensus_conserves_paid :
    ∃ (first second : Block) (funded : ChainState) (after : ChainState × Digest)
      (stream : BlockPageStreamFacts) (slots : Nat → SlotValue),
      acceptSample 0 first.header funded second = .ok after ∧
      validateBlockPageStream ChainHashes.sample.tx second.transactions = .ok stream ∧
      feeSum stream.groups = 9000 ∧ burnedSum first.header stream.groups = 2500 ∧
      funded.circulatingSupplyMicronoid.toNat = total amountOf slots (2 ^ funded.state.logSlots) ∧
      funded.circulatingSupplyMicronoid = 1000000 ∧
      after.1.circulatingSupplyMicronoid.toNat = total amountOf
        (overlay slots (blockWrites second.header.height funded.allocCounter.toNat second.bodies))
        (2 ^ after.1.state.logSlots) ∧
      after.1.circulatingSupplyMicronoid.toNat = 1000000 + 506500 - 9000 := by
  have ran : ((ChainState.withLogSlots ChainHashes.sample.state 2).any fun empty =>
      ((fundingStep 0).block (sampleGenesis 2) empty).toOption.any fun first =>
      (acceptSample 0 (sampleGenesis 2) empty first).toOption.any fun funded =>
      ((splittingStep 0).block first.header funded.1).toOption.any fun second =>
      (acceptSample 0 first.header funded.1 second).toOption.any fun _ =>
      (validateBlockPageStream ChainHashes.sample.tx second.transactions).toOption.any fun stream =>
      (developmentAllocationWithSchedule second.header.height.toNat second.header.logSlots.toNat
        activeSchedule).toOption.any fun allocation =>
        decide (empty.circulatingSupplyMicronoid = 0 ∧ allocation.payoutTotal = 0 ∧
          second.transactions.head?.map (·.body.outputs[0].amount) = some 506500 ∧
          feeSum stream.groups = 9000 ∧ burnedSum first.header stream.groups = 2500 ∧
          funded.1.circulatingSupplyMicronoid = 1000000)) = true := by
    decide +kernel
  simp only [Option.any_eq_true, decide_eq_true_eq, toOption_eq_some] at ran
  obtain ⟨empty, built, first, -, funded, ok, second, -, after, ok', stream, streamed, allocation,
    found, zero, unpaid, reward, fees, burned, supply⟩ := ran
  obtain ⟨sound, -⟩ := ChainState.withLogSlots_sound built
  have settled : empty.circulatingSupplyMicronoid.toNat =
      total amountOf (fun _ => SlotValue.empty) (2 ^ empty.state.logSlots) := by
    simp [zero, total]
  obtain ⟨rep, sum, -⟩ := validateBlockConsensus_conserves sound.rep settled ok
  obtain ⟨-, sum', coinbase, stream', allocation', head, streamed', found', moved, -⟩ :=
    validateBlockConsensus_conserves rep sum ok'
  cases streamed.symm.trans streamed'
  cases found.symm.trans found'
  rw [head, Option.map_some, Option.some.injEq] at reward
  rw [fees, unpaid, reward, supply] at moved
  have numbers : (506500 : U64).toNat = 506500 ∧ (1000000 : U128).toNat = 1000000 := ⟨rfl, rfl⟩
  exact ⟨first, second, funded.1, after, stream, _, ok', streamed, fees, burned, sum, supply, sum',
    by omega⟩

end ParanoidChain
