import ParanoidChain.Laws.Chain.Accounting

/-!
# Runs of blocks

`BlockRun` is a run of successful `apply_block` calls from an empty state. Nothing leaves memory in
it, so the slot vector is what the store reads.

The occupancy counter of a run is the number of occupied slots minus the number of inputs that named
an empty slot. Such an input exists: with amount, creation id and owner all zero it claims the value
of an empty slot, is accepted, and takes one off the counter (`empty_claim_miscounts`).
-/

namespace ParanoidChain

open Lib

/-- With every segment in memory, the vector is what the store reads. -/
theorem SegmentedFriState.Represents.slot_eq_slots {hasher : StateHasher}
    {state : SegmentedFriState} {slots : Nat → SlotValue} (rep : state.Represents hasher slots)
    (resident : state.evicted = []) : state.slot = slots := by
  funext index
  by_cases inside : index < 2 ^ state.logSlots
  · exact rep.slot_eq inside (by simp [resident])
  · have missing : state.tryGetSegmentColumns (state.segIdOf index) = none := by
      by_contra found
      obtain ⟨columns, found⟩ := Option.ne_none_iff_exists'.mp found
      have low := (Nat.div_lt_iff_lt_mul (Nat.two_pow_pos _)).mp (rep.tryGet_lt found)
      rw [rep.size_eq] at low
      exact inside low
    rw [SegmentedFriState.slot, missing, rep.beyond index (Nat.le_of_not_lt inside)]

namespace ChainState

/-- A run of blocks from the empty state of the given depth. -/
inductive BlockRun (hashes : ChainHashes) (logSlots : Nat) : List Block → ChainState → Prop
  | start {chain : ChainState} (built : withLogSlots hashes.state logSlots = some chain) :
      BlockRun hashes logSlots [] chain
  | apply {blocks : List Block} {chain after : ChainState} {block : Block} {root : Digest}
      (run : BlockRun hashes logSlots blocks chain)
      (ok : chain.applyBlock hashes block = .ok (after, root)) :
      BlockRun hashes logSlots (blocks ++ [block]) after

variable {hashes : ChainHashes} {logSlots : Nat} {blocks : List Block} {chain after : ChainState}
  {block : Block} {root : Digest} {slots : Nat → SlotValue}

/-- One block in the terms of the vector. -/
theorem applyBlock_ok (rep : chain.state.Represents hashes.state slots)
    (ok : chain.applyBlock hashes block = .ok (after, root)) :
    AppliedBlock hashes slots chain after block := by
  obtain ⟨-, grown, applied, stream, stages⟩ := applyBlock_eq_ok.mp ok
  exact stages.appliedBlock rep

/-- A block evicts nothing. -/
theorem AppliedBlock.evicted_eq_nil (applied : AppliedBlock hashes slots chain after block)
    (none : chain.state.evicted = []) : after.state.evicted = [] :=
  List.eq_nil_iff_forall_not_mem.mpr fun id => by simp [applied.evicted_iff, none]

/-- The slots a block adds to the domain weigh nothing before it writes them. -/
theorem AppliedBlock.total_wider (applied : AppliedBlock hashes slots chain after block)
    (rep : chain.state.Represents hashes.state slots) {weight : SlotValue → Nat}
    (empty : weight .empty = 0) :
    total weight slots (2 ^ after.state.logSlots) = total weight slots (2 ^ chain.state.logSlots) := by
  refine rep.total_wider ?_ empty
  rw [applied.logSlots_eq]
  omega

/-- A supply that is the sum of the slots stays so. -/
theorem AppliedBlock.settled (applied : AppliedBlock hashes slots chain after block)
    (settled : chain.circulatingSupplyMicronoid.toNat =
      total amountOf slots (2 ^ chain.state.logSlots)) :
    after.circulatingSupplyMicronoid.toNat = total amountOf (overlay slots
      (blockWrites block.header.height chain.allocCounter.toNat block.bodies))
      (2 ^ after.state.logSlots) := by
  have supply := applied.supply_eq
  omega

section

variable (run : BlockRun hashes logSlots blocks chain)
include run

/-- Nothing leaves memory in a run, so its vector is what the store reads. -/
theorem BlockRun.represents :
    chain.state.Represents hashes.state chain.state.slot ∧ chain.state.evicted = [] := by
  induction run with
  | start built =>
    obtain ⟨sound, -, -, resident, -⟩ := withLogSlots_sound built
    exact ⟨sound.rep.slot_eq_slots resident ▸ sound.rep, resident⟩
  | apply _ ok ih =>
    have applied := applyBlock_ok ih.1 ok
    have resident := applied.evicted_eq_nil ih.2
    exact ⟨applied.rep.slot_eq_slots resident ▸ applied.rep, resident⟩

/-- A block of a run writes the vector of the store. -/
theorem BlockRun.slot_apply (ok : chain.applyBlock hashes block = .ok (after, root)) :
    after.state.slot = overlay chain.state.slot
      (blockWrites block.header.height chain.allocCounter.toNat block.bodies) :=
  (applyBlock_ok run.represents.1 ok).rep.slot_eq_slots (run.apply ok).represents.2

/-- The allocator stays below the tagged ids. -/
theorem BlockRun.alloc_lt :
    chain.allocCounter.toNat < 2 ^ 63 := by
  cases run with
  | start built =>
    simp only [withLogSlots, bind_eq_some, pure_eq_some] at built
    obtain ⟨state, -, rfl⟩ := built
    show 0 < 2 ^ 63
    decide
  | apply run ok => exact (applyBlock_ok run.represents.1 ok).alloc_lt

/-- The supply of a run is the sum of its slots. -/
theorem BlockRun.settled : chain.circulatingSupplyMicronoid.toNat =
    total amountOf chain.state.slot (2 ^ chain.state.logSlots) := by
  induction run with
  | start built =>
    obtain ⟨sound, -, -, resident, -⟩ := withLogSlots_sound built
    rw [sound.rep.slot_eq_slots resident]
    simp only [withLogSlots, bind_eq_some, pure_eq_some] at built
    obtain ⟨state, -, rfl⟩ := built
    simp [total]
  | apply run ok ih =>
    rw [run.slot_apply ok]
    exact (applyBlock_ok run.represents.1 ok).settled ih

end

/-! ## Occupancy -/

/-- The number of occupied slots. -/
def occupiedSlots (chain : ChainState) : Nat :=
  (List.range chain.state.numSlots).countP fun index => !(chain.state.slot index).isEmpty

/-- The inputs of some bodies that claim the value of an empty slot. -/
def emptyClaims (bodies : List TxBody) : Nat :=
  (bodies.flatMap TxBody.claims).countP fun claim => claim.isEmpty

/-- An input claims the empty value exactly when everything in it is zero. -/
theorem claimed_eq_empty {input : TxInput} {owner : Address} :
    input.claimed owner = .empty ↔ input.amount = 0 ∧ input.creationId = 0 ∧ owner = .zero := by
  rw [TxInput.claimed, SlotValue.withOwnerFields_eq_empty, Address.asFields_eq_zero]

theorem length_claims (bodies : List TxBody) :
    (bodies.flatMap TxBody.claims).length = spendCount bodies := by
  simp only [spendCount, List.length_flatMap, TxBody.claims, List.length_map]

/-- Every claim is of an occupied slot or of the empty value. -/
theorem sum_occupied_claims (claims : List SlotValue) :
    (claims.map occupied).sum + claims.countP (fun claim => claim.isEmpty) = claims.length := by
  induction claims with
  | nil => rfl
  | cons claim rest ih =>
    by_cases empty : claim = .empty
    · simp [empty]
      omega
    · simp [occupied_of_ne empty, empty]
      omega

/-- A minted value is not empty, since its creation id is not zero. -/
theorem occupied_minted (output : TxOutput) (creationId : U64) (fresh : creationId ≠ 0) :
    occupied (output.minted creationId) = 1 := by
  refine occupied_of_ne fun empty => fresh ?_
  exact (SlotValue.withOwnerFields_eq_empty.mp empty).2.1

/-- The counter of a run is short by the inputs that named empty slots. -/
theorem BlockRun.active_add_emptyClaims (run : BlockRun hashes logSlots blocks chain) :
    chain.activeSlotCount.toNat + emptyClaims (blocks.flatMap Block.bodies) =
      chain.occupiedSlots := by
  rw [occupiedSlots, countP_live]
  induction run with
  | start built =>
    obtain ⟨sound, log, -, resident, -⟩ := withLogSlots_sound built
    have zero : total occupied (fun _ => SlotValue.empty) (2 ^ logSlots) = 0 := by
      simp [total]
    simp only [withLogSlots, bind_eq_some, pure_eq_some] at built
    obtain ⟨state, -, rfl⟩ := built
    rw [sound.rep.slot_eq_slots resident, SegmentedFriState.numSlots, log, zero]
    rfl
  | @apply blocks chain after block _ run ok ih =>
    have applied := applyBlock_ok run.represents.1 ok
    have low := applied.alloc_lt
    rw [applied.alloc_eq] at low
    have moved := total_blockWrites occupied_empty occupied_minted applied.distinct applied.accepted
      applied.inside low
    have wider := applied.total_wider run.represents.1 occupied_empty
    have claims := sum_occupied_claims (block.bodies.flatMap TxBody.claims)
    rw [length_claims] at claims
    have mints : ((block.bodies.flatMap TxBody.mints).map fun _ => 1).sum = mintCount block.bodies := by
      simp [mintCount, List.length_flatMap]
    have active := applied.active_eq
    simp only [emptyClaims, List.flatMap_append, List.countP_append, List.flatMap_singleton,
      SegmentedFriState.numSlots] at ih ⊢
    rw [run.slot_apply ok]
    omega

/-- Some live input of the block has amount, creation id and owner zero. -/
def ClaimsEmpty (block : Block) : Prop :=
  ∃ body ∈ block.bodies, ∃ input ∈ body.spends,
    input.amount = 0 ∧ input.creationId = 0 ∧ body.inputOwner = .zero

theorem emptyClaims_eq_zero :
    emptyClaims (blocks.flatMap Block.bodies) = 0 ↔ ∀ block ∈ blocks, ¬ ClaimsEmpty block := by
  simp only [emptyClaims, List.countP_eq_zero, List.mem_flatMap, TxBody.claims, List.mem_map,
    SlotValue.isEmpty, decide_eq_true_eq, ClaimsEmpty]
  constructor
  · rintro none block member ⟨body, within, input, spent, zero⟩
    exact none _ ⟨body, ⟨block, member, within⟩, input, spent, rfl⟩ (claimed_eq_empty.mpr zero)
  · rintro none _ ⟨body, ⟨block, member, within⟩, input, spent, rfl⟩ empty
    exact none block member ⟨body, within, input, spent, claimed_eq_empty.mp empty⟩

/-- In a run the counter is the number of occupied slots, and the inputs of the next block name
occupied slots, exactly as far as no input is all zero. -/
theorem BlockRun.active_eq_occupied_iff (run : BlockRun hashes logSlots blocks chain) :
    (chain.activeSlotCount.toNat = chain.occupiedSlots ↔
      ∀ block ∈ blocks, ¬ ClaimsEmpty block) ∧
    ∀ block after root, chain.applyBlock hashes block = .ok (after, root) →
      ((∀ body ∈ block.bodies, ∀ input ∈ body.spends,
          chain.state.slot input.slotIndex.toNat ≠ .empty) ↔ ¬ ClaimsEmpty block) := by
  constructor
  · rw [← emptyClaims_eq_zero, ← run.active_add_emptyClaims]
    omega
  · intro block after root ok
    have applied := applyBlock_ok run.represents.1 ok
    have fits := (accepted_iff applied.distinct).mp applied.accepted
    constructor
    · rintro live ⟨body, within, input, spent, zero⟩
      exact live body within input spent
        (((fits body within).claimed input spent).trans (claimed_eq_empty.mpr zero))
    · rintro none body within input spent empty
      exact none ⟨body, within, input, spent, claimed_eq_empty.mp
        (((fits body within).claimed input spent).symm.trans empty)⟩

/-! ## Sample runs -/

/-- A block over the given records whose header states what applying them yields. -/
def templateOn (hashes : ChainHashes) (chain : ChainState) (height : U64) (logSlots : U32)
    (txs : List Transaction) : Except (Fault BlockApplyError) Block := do
  let stream ← (validateBlockPageStream hashes.tx txs).mapError fun _ => .err .invalidPagedSpend
  let grown ← okOr .panic (chain.expandTo hashes.state logSlots.toNat)
  let applied ← txs.zipIdx.foldlM (applyBlockTx hashes.state height stream.userStartIndex) grown
  let root ← (applied.tryStateRoot hashes.state).2.mapError fun _ =>
    .err (.tx .exactStateUnavailable)
  let txRoot ← (tryComputeTxRoot hashes txs).mapError fun _ => .err .invalidPagedSpend
  let header := {
    prevBlockHash := 0
    stateRoot := root
    txRoot
    timestamp := 0
    height
    minerAddress := .zero
    nonce := 0
    difficultyTarget := 0
    logSlots
    activeSlotCount := applied.activeSlotCount
    allocCounter := applied.allocCounter }
  return { header, transactions := txs }

/-- A body with no live record. -/
def blankBody : TxBody where
  epochAnchor := 0
  fee := 0
  inputOwner := .zero
  inputs := Vector.replicate txInputs .dummy
  outputs := Vector.replicate txOutputs .dummy
  validityBitmap := 0
  isCoinbase := false

/-- A reward of `amount` into one slot. -/
def rewardBody (slot : U32) (amount : U64) : TxBody :=
  { blankBody with
    outputs := #v[⟨slot, amount, .zero⟩, .dummy]
    validityBitmap := outputBitmapBit 0
    isCoinbase := true }

/-- A one-page spend of one input, without outputs or fee. -/
def burnBody (input : TxInput) : TxBody :=
  { blankBody with
    inputs := blankBody.inputs.set 0 input txInputs_pos
    validityBitmap := 1 ||| pagedSpendMarkerMask }

/-- After one block of a reward and an all-zero spend of an empty slot, the counter is zero and one
slot is occupied. -/
theorem empty_claim_miscounts :
    ∃ block chain after root, BlockRun .sample 2 [block] after ∧
      withLogSlots ChainHashes.sample.state 2 = some chain ∧
      chain.applyBlock .sample block = .ok (after, root) ∧
      block.bodies = [rewardBody 0 5, burnBody ⟨1, 0, 0⟩] ∧
      chain.state.slot 1 = .empty ∧
      after.activeSlotCount = 0 ∧ after.occupiedSlots = 1 := by
  have ran : ((withLogSlots ChainHashes.sample.state 2).any fun chain =>
      ((templateOn .sample chain 1 2 [⟨rewardBody 0 5⟩, ⟨burnBody ⟨1, 0, 0⟩⟩]).toOption.any fun block =>
      (chain.applyBlock .sample block).toOption.any fun after =>
        decide (block.bodies = [rewardBody 0 5, burnBody ⟨1, 0, 0⟩] ∧
          chain.state.slot 1 = .empty ∧
          after.1.activeSlotCount = 0 ∧ after.1.occupiedSlots = 1))) = true := by
    decide +kernel
  simp only [Option.any_eq_true, decide_eq_true_eq, toOption_eq_some] at ran
  obtain ⟨chain, built, block, -, ⟨after, root⟩, ok, bodies, empty, active, occupied⟩ := ran
  exact ⟨block, chain, after, root, (BlockRun.start built).apply ok, built, ok, bodies, empty,
    active, occupied⟩

/-- A one-page spend of one input into one output. -/
def moveBody (input : TxInput) (output : TxOutput) (fee : U64) : TxBody :=
  { blankBody with
    fee
    inputs := blankBody.inputs.set 0 input txInputs_pos
    outputs := blankBody.outputs.set 0 output txOutputs_pos
    validityBitmap := 1 ||| outputBitmapBit 0 ||| pagedSpendMarkerMask }

/-- Template blocks over the planned heights, depths and records, applied one after the other. -/
def extendRun (hashes : ChainHashes) :
    ChainState → List (U64 × U32 × List Transaction) → Option (List Block × ChainState)
  | chain, [] => some ([], chain)
  | chain, (height, logSlots, txs) :: plan => do
    let block ← (templateOn hashes chain height logSlots txs).toOption
    let (after, _) ← (chain.applyBlock hashes block).toOption
    let (blocks, last) ← extendRun hashes after plan
    return (block :: blocks, last)

/-- Planned blocks that apply extend a run. -/
theorem BlockRun.extendRun (run : BlockRun hashes logSlots blocks chain)
    {plan : List (U64 × U32 × List Transaction)} {more : List Block} {last : ChainState}
    (ran : ChainState.extendRun hashes chain plan = some (more, last)) :
    BlockRun hashes logSlots (blocks ++ more) last := by
  induction plan generalizing chain blocks more with
  | nil =>
    cases ran
    rwa [List.append_nil]
  | cons step plan ih =>
    obtain ⟨height, depth, txs⟩ := step
    simp only [ChainState.extendRun, bind_eq_some, toOption_eq_some, pure_eq_some] at ran
    obtain ⟨block, -, ⟨after, root⟩, ok, ⟨rest, _⟩, ran, same⟩ := ran
    cases same
    have extended := ih (run.apply ok) ran
    rwa [List.append_assoc, List.singleton_append] at extended

/-- A reward into slot 0; a reward into slot 1 beside a payment out of slot 0 into slot 2 with a fee;
a reward into slot 0 again. -/
def respentPlan : List (U64 × U32 × List Transaction) :=
  [(1, 2, [⟨rewardBody 0 5⟩]),
    (2, 2, [⟨rewardBody 1 6⟩, ⟨moveBody ⟨0, 5, coinbaseCreationId 1⟩ ⟨2, 4, ⟨9⟩⟩ 1⟩]),
    (3, 2, [⟨rewardBody 0 7⟩])]

/-- The planned blocks make up a run of three blocks. -/
theorem respent_run :
    ∃ first second third after, BlockRun .sample 2 [first, second, third] after ∧
      first.header.height = 1 ∧ second.header.height = 2 ∧ third.header.height = 3 ∧
      first.bodies = [rewardBody 0 5] ∧
      second.bodies = [rewardBody 1 6, moveBody ⟨0, 5, coinbaseCreationId 1⟩ ⟨2, 4, ⟨9⟩⟩ 1] ∧
      third.bodies = [rewardBody 0 7] ∧
      ∀ index < 3, after.state.slot index ≠ .empty := by
  have ran : ((withLogSlots ChainHashes.sample.state 2).any fun chain =>
      (chain.extendRun .sample respentPlan).any fun result =>
        decide (result.1.map (·.header.height) = [1, 2, 3] ∧
          result.1.map Block.bodies = respentPlan.map (fun step => step.2.2.map (·.body)) ∧
          ∀ index < 3, result.2.state.slot index ≠ .empty)) = true := by
    decide +kernel
  simp only [Option.any_eq_true, decide_eq_true_eq] at ran
  obtain ⟨chain, built, ⟨blocks, after⟩, ran, heights, bodies, live⟩ := ran
  have run := (BlockRun.start built).extendRun ran
  have three : blocks.length = 3 := by simpa using congrArg List.length heights
  obtain ⟨first, second, third, rfl⟩ := List.length_eq_three.mp three
  simp only [List.map_cons, List.map_nil, List.cons.injEq, and_true, respentPlan] at heights bodies
  exact ⟨first, second, third, after, run, heights.1, heights.2.1, heights.2.2, bodies.1, bodies.2.1,
    bodies.2.2, live⟩

/-- In that run, with a live input in its second block, the counter is the number of occupied slots. -/
theorem active_eq_occupied_respent :
    ∃ first second third after, BlockRun .sample 2 [first, second, third] after ∧
      after.activeSlotCount.toNat = after.occupiedSlots := by
  obtain ⟨first, second, third, after, run, -, -, -, one, two, three, -⟩ := respent_run
  refine ⟨first, second, third, after, run, run.active_eq_occupied_iff.1.mpr ?_⟩
  intro block member
  simp only [List.mem_cons, List.not_mem_nil, or_false] at member
  unfold ClaimsEmpty
  rcases member with rfl | rfl | rfl
  · rw [one]
    decide +kernel
  · rw [two]
    decide +kernel
  · rw [three]
    decide +kernel

end ChainState

end ParanoidChain
