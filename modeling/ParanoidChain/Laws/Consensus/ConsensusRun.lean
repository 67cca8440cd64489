import ParanoidChain.Laws.Consensus.Conservation
import ParanoidChain.Laws.Consensus.DaPrune
import ParanoidChain.Laws.Consensus.Issuance

/-!
# Chains of accepted blocks

`ConsensusRun` starts at a genesis block and goes on with blocks that `validate_block_consensus`
accepts on top of the tip. The timestamps, the occupancy window, the clock and the difficulty anchor
are whatever the caller gave at each block.

The tip header of a run commits to the whole state (`Committed`). So two nodes with one state root
hold the same slots or have found a collision in their own two trees, and what is in circulation
never exceeds the rewards of the blocks so far.
-/

namespace ParanoidChain

open Lib Lib.Merkle ChainState

variable {hashes : ChainHashes} {logSlots : Nat} {blocks : List Block} {tip : BlockHeader}
  {chain after : ChainState} {block : Block} {root : Digest}

/-- A genesis block and the blocks accepted after it, with the last header and the state. Genesis is
not checked for its depth: it names that of the empty state. -/
inductive ConsensusRun (hashes : ChainHashes) (logSlots : Nat) :
    List Block → BlockHeader → ChainState → Prop
  | genesis {chain after : ChainState} {block : Block} {root : Digest}
      (built : withLogSlots hashes.state logSlots = some chain)
      (depth : block.header.logSlots.toNat = logSlots)
      (ok : chain.applyGenesisBlock hashes block = (after, .ok root)) :
      ConsensusRun hashes logSlots [] block.header after
  | accept {blocks : List Block} {tip : BlockHeader} {chain after : ChainState} {block : Block}
      {root : Digest} {prevTimestamps finalizedActiveCounts : List U64} {localTime : U64}
      {anchor : AnchorInfo} (run : ConsensusRun hashes logSlots blocks tip chain)
      (ok : validateBlockConsensus hashes block tip prevTimestamps finalizedActiveCounts localTime
        anchor chain = .ok (after, root)) :
      ConsensusRun hashes logSlots (blocks ++ [block]) block.header after

/-! ## One accepted block -/

theorem expectedChildLogSlots_le (height depth : Nat) (counts : List U64) :
    (height < expansionHeaderLookback → expectedChildLogSlots height depth counts = depth) ∧
      expectedChildLogSlots height depth counts ≤ depth + 1 ∧
      expectedChildLogSlots height depth counts ≤ max depth logSlotsMax := by
  constructor
  · intro early
    have none : finalizedExpansionWindow height = none :=
      if_neg (Nat.not_le.mpr early)
    simp [expectedChildLogSlots, none]
  · simp only [expectedChildLogSlots, saturatingAdd]
    split_ifs <;> omega

/-- What was checked of an accepted block. -/
structure AcceptedBlock (hashes : ChainHashes) (block : Block) (parent : BlockHeader)
    (chain after : ChainState) : Prop where
  height_eq : block.header.height = parent.height + 1
  depth_le : (parent.height.toNat < expansionHeaderLookback →
      block.header.logSlots.toNat = parent.logSlots.toNat) ∧
    block.header.logSlots.toNat ≤ parent.logSlots.toNat + 1 ∧
    block.header.logSlots.toNat ≤ max parent.logSlots.toNat logSlotsMax
  mandatory : validateMandatoryCoinbase hashes block parent = .ok ()
  paid : ∃ stream coinbase claimable, checkPageStream hashes block = .ok stream ∧
    block.transactions[0]? = some coinbase ∧
    validateFeePolicyAndClaimableFeeSum hashes block parent = .ok claimable ∧
    validateCoinbaseAmount block coinbase claimable = .ok ()
  applied : ∃ root, chain.applyBlock hashes block = .ok (after, root)

/-- What an accepted block satisfies. -/
theorem validateBlockConsensus_accepted {prevTimestamps finalizedActiveCounts : List U64}
    {localTime : U64} {anchor : AnchorInfo}
    (ok : validateBlockConsensus hashes block tip prevTimestamps finalizedActiveCounts localTime
      anchor chain = .ok (after, root)) : AcceptedBlock hashes block tip chain after := by
  simp only [validateBlockConsensus, validateHeader, validateHeaderInner, bind_eq_ok,
    mapError_ok_iff, okOr_eq_ok, pure_eq_ok, reject_eq_ok, not_not, exists_const, Prod.exists] at ok
  obtain ⟨⟨-, height, -, -, _, -, -, depth⟩, _, -, _, mandatory, stream, accepted, _, -, coinbase,
    first, _, -, claimable, fees, _, amount, _, root, run, same⟩ := ok
  obtain ⟨rfl, -⟩ := Prod.mk.inj same
  exact ⟨height, depth ▸ expectedChildLogSlots_le _ _ _, mandatory,
    ⟨stream, coinbase, claimable, accepted, first, fees, amount⟩, root, run⟩

namespace AcceptedBlock

variable (accepted : AcceptedBlock hashes block tip chain after)
include accepted

/-- An accepted block raises the sum of the amounts by no more than its height issues. -/
theorem supply_le (shut : RootSealed hashes.state chain)
    (settled : chain.circulatingSupplyMicronoid.toNat =
      total amountOf chain.state.slot (2 ^ chain.state.logSlots)) :
    after.circulatingSupplyMicronoid.toNat = total amountOf (overlay chain.state.slot
        (blockWrites block.header.height chain.allocCounter.toNat block.bodies))
        (2 ^ after.state.logSlots) ∧
      ∃ allocation, developmentAllocationWithSchedule block.header.height.toNat
          block.header.logSlots.toNat activeSchedule = .ok allocation ∧
        after.circulatingSupplyMicronoid.toNat ≤
          chain.circulatingSupplyMicronoid.toNat + allocation.issued := by
  obtain ⟨stream, coinbase, claimable, streamOk, first, fees, amount⟩ := accepted.paid
  obtain ⟨root, run⟩ := accepted.applied
  have applied := applyBlock_ok shut.sound.rep run
  obtain ⟨allocation, found, -, bound⟩ := applied.conserves shut.sound.rep settled
    accepted.mandatory streamOk first fees amount
  refine ⟨applied.settled settled, allocation, found, ?_⟩
  simp only [DevelopmentAllocation.payoutTotal] at bound
  simp only [DevelopmentAllocation.issued]
  omega

end AcceptedBlock

/-! ## What the tip commits to -/

/-- The tip header states the root, the depth and the counters of a sealed state whose supply is
the sum of its slots. -/
structure Committed (hashes : ChainHashes) (tip : BlockHeader) (chain : ChainState) : Prop where
  shut : RootSealed hashes.state chain
  root_eq : tip.stateRoot = chain.utxoRoot
  depth_eq : tip.logSlots.toNat = chain.state.logSlots
  active_eq : tip.activeSlotCount = chain.activeSlotCount
  alloc_eq : tip.allocCounter = chain.allocCounter
  settled : chain.circulatingSupplyMicronoid.toNat =
    total amountOf chain.state.slot (2 ^ chain.state.logSlots)

/-- Computing the root of a state that is all in memory seals it. -/
theorem ChainState.Rooted.sealed {slots : Nat → SlotValue}
    (rooted : Rooted hashes.state slots chain after (.ok root))
    (resident : chain.state.evicted = []) :
    RootSealed hashes.state after ∧ after.state.slot = slots ∧ after.utxoRoot = root := by
  have whole := rooted.sound.rep.slot_eq_slots (rooted.evicted_eq.trans resident)
  obtain ⟨plain, cached, clean⟩ := rooted.ok _ rfl
  rw [← rooted.logSlots_eq, ← whole] at plain
  exact ⟨⟨whole ▸ rooted.sound, rooted.evicted_eq.trans resident, clean, rooted.depth_eq,
    cached.trans plain⟩, whole, cached⟩

theorem Committed.genesis (built : withLogSlots hashes.state logSlots = some chain)
    (depth : block.header.logSlots.toNat = logSlots)
    (ok : chain.applyGenesisBlock hashes block = (after, .ok root)) :
    Committed hashes block.header after ∧ block.header.height = 0 ∧
      after.circulatingSupplyMicronoid = 0 := by
  obtain ⟨sound, log, -, resident, -⟩ := withLogSlots_sound built
  have rooted := sound.tryStateRoot
  simp only [applyGenesisBlock] at ok
  split_ifs at ok with height <;> simp only [Prod.mk.injEq, reduceCtorEq, and_false] at ok
  obtain ⟨rfl, checked⟩ := ok
  simp only [checkGenesis, bind_eq_ok, mapError_ok_iff, reject_eq_ok, pure_eq_ok, exists_const,
    not_not, not_or] at checked
  obtain ⟨_, plain, rfl, ⟨active, alloc⟩, -⟩ := checked
  rw [plain] at rooted
  obtain ⟨shut, whole, cached⟩ := rooted.sealed resident
  have zeros : chain.activeSlotCount = 0 ∧ chain.allocCounter = 0 ∧
      chain.circulatingSupplyMicronoid = 0 := by
    simp only [withLogSlots, bind_eq_some, pure_eq_some] at built
    obtain ⟨state, -, rfl⟩ := built
    exact ⟨rfl, rfl, rfl⟩
  have supply := rooted.supply_eq.trans zeros.2.2
  refine ⟨⟨shut, cached.symm, depth.trans (log.symm.trans rooted.logSlots_eq.symm), ?_, ?_, ?_⟩,
    not_not.mp height, supply⟩
  · rw [rooted.active_eq, zeros.1, active]
  · rw [rooted.alloc_eq, zeros.2.1, alloc]
  · rw [supply, whole]
    simp [total]

/-- The depth of an accepted block is that of its parent or one more. -/
theorem AcceptedBlock.depth_cases (accepted : AcceptedBlock hashes block tip chain after)
    (held : Committed hashes tip chain) :
    block.header.logSlots.toNat = after.state.logSlots ∧
      (block.header.logSlots.toNat = chain.state.logSlots ∨
        block.header.logSlots.toNat = chain.state.logSlots + 1) := by
  obtain ⟨root, run⟩ := accepted.applied
  have log := (applyBlock_ok held.shut.sound.rep run).logSlots_eq
  obtain ⟨-, _, _, _, stages⟩ := applyBlock_eq_ok.mp run
  have header := congrArg BitVec.toNat stages.sealed.logSlots_eq
  have depth := accepted.depth_le.2.1
  have small := tip.logSlots.isLt
  rw [held.depth_eq] at depth small
  -- the header's word is compared after truncation, which changes nothing at these depths
  have wide := block.header.logSlots.isLt
  rw [toNat_ofNat_of_lt (by omega)] at header
  omega

theorem Committed.accept (held : Committed hashes tip chain)
    (accepted : AcceptedBlock hashes block tip chain after) :
    Committed hashes block.header after := by
  obtain ⟨root, run⟩ := accepted.applied
  obtain ⟨depth, grown⟩ := accepted.depth_cases held
  obtain ⟨-, _, _, _, stages⟩ := applyBlock_eq_ok.mp run
  obtain ⟨_, rooted⟩ := held.shut.applyBlock_rooted grown run
  have shut := held.shut.apply grown run
  have whole := rooted.sound.rep.slot_eq_slots shut.resident
  exact ⟨shut, (rooted.ok _ rfl).2.1.symm, depth, stages.sealed.active_eq, stages.sealed.alloc_eq,
    whole ▸ (accepted.supply_le held.shut held.settled).1⟩

/-- So the tip of every run commits to its state. -/
theorem ConsensusRun.committed (run : ConsensusRun hashes logSlots blocks tip chain) :
    Committed hashes tip chain := by
  induction run with
  | genesis built depth ok => exact (Committed.genesis built depth ok).1
  | accept _ ok ih => exact ih.accept (validateBlockConsensus_accepted ok)

/-- The height of the tip counts the blocks, as a word. -/
theorem ConsensusRun.height_eq (run : ConsensusRun hashes logSlots blocks tip chain) :
    tip.height.toNat = blocks.length % 2 ^ 64 := by
  induction run with
  | genesis built depth ok =>
    rw [(Committed.genesis built depth ok).2.1]
    rfl
  | accept run ok ih =>
    rw [List.length_append, List.length_singleton, Nat.add_mod, ← ih,
      (validateBlockConsensus_accepted ok).height_eq]
    rfl

/-- An accepted block is as deep as its parent or one level deeper, as deep as its parent before the
first finalized window is full, and no deeper than the larger of its parent and the largest depth. -/
theorem ConsensusRun.depth_step {prevTimestamps finalizedActiveCounts : List U64} {localTime : U64}
    {anchor : AnchorInfo} (run : ConsensusRun hashes logSlots blocks tip chain)
    (ok : validateBlockConsensus hashes block tip prevTimestamps finalizedActiveCounts localTime
      anchor chain = .ok (after, root)) :
    tip.logSlots.toNat ≤ block.header.logSlots.toNat ∧
      block.header.logSlots.toNat ≤ tip.logSlots.toNat + 1 ∧
      (blocks.length < expansionHeaderLookback →
        block.header.logSlots.toNat = tip.logSlots.toNat) ∧
      block.header.logSlots.toNat ≤ max tip.logSlots.toNat logSlotsMax := by
  have accepted := validateBlockConsensus_accepted ok
  have held := run.committed.depth_eq
  obtain ⟨-, grown⟩ := accepted.depth_cases run.committed
  obtain ⟨window, one, cap⟩ := accepted.depth_le
  have height : tip.height.toNat ≤ blocks.length := run.height_eq.trans_le (Nat.mod_le ..)
  exact ⟨by omega, one, fun early => window (height.trans_lt early), cap⟩

/-- The depths a chain goes through, from that of genesis to that of its tip. -/
def depths (logSlots : Nat) (blocks : List Block) : List Nat :=
  logSlots :: blocks.map (·.header.logSlots.toNat)

@[simp] theorem depths_append (logSlots : Nat) (blocks : List Block) (block : Block) :
    depths logSlots (blocks ++ [block]) = depths logSlots blocks ++ [block.header.logSlots.toNat] := by
  simp [depths]

theorem ConsensusRun.getLast_depths (run : ConsensusRun hashes logSlots blocks tip chain) :
    (depths logSlots blocks).getLast? = some tip.logSlots.toNat := by
  cases run with
  | genesis built depth ok => simp [depths, depth]
  | accept run ok => simp

/-- From one block to the next the depth stays or grows by one level. -/
theorem ConsensusRun.depths_steps (run : ConsensusRun hashes logSlots blocks tip chain) :
    (depths logSlots blocks).IsChain fun depth next => depth ≤ next ∧ next ≤ depth + 1 := by
  induction run with
  | genesis built depth ok => simp [depths]
  | accept run ok ih =>
    obtain ⟨keeps, one, -⟩ := run.depth_step ok
    rw [depths_append, List.isChain_append]
    refine ⟨ih, List.isChain_singleton _, ?_⟩
    intro last isLast next isNext
    rw [run.getLast_depths, Option.mem_some_iff] at isLast
    rw [List.head?_singleton, Option.mem_some_iff] at isNext
    subst isLast isNext
    exact ⟨keeps, one⟩

/-- Depths that grow by at most one level at a time and not before a position stay within the steps
behind it. -/
theorem ConsensusRun.depth_bounds (run : ConsensusRun hashes logSlots blocks tip chain) :
    (∀ depth ∈ (depths logSlots blocks).take (expansionHeaderLookback + 1), depth = logSlots) ∧
      tip.logSlots.toNat ≤ max logSlots logSlotsMax ∧
      tip.logSlots.toNat ≤ logSlots + (blocks.length - expansionHeaderLookback) := by
  induction run with
  | genesis built depth ok =>
    refine ⟨?_, by omega, by omega⟩
    simp [depths]
  | @accept blocks tip chain after block _ _ _ _ _ run ok ih =>
    obtain ⟨flat, cap, steps⟩ := ih
    obtain ⟨keeps, one, early, top⟩ := run.depth_step ok
    rw [List.length_append, List.length_singleton]
    refine ⟨?_, by omega, ?_⟩
    · intro depth member
      have length : (depths logSlots blocks).length = blocks.length + 1 := by simp [depths]
      rw [depths_append, List.take_append, List.mem_append] at member
      rcases member with old | new
      · exact flat depth old
      · rcases Nat.lt_or_ge blocks.length expansionHeaderLookback with low | high
        · have last := List.mem_of_mem_take new
          rw [List.mem_singleton] at last
          rw [last, early low]
          exact flat _ (by
            rw [List.take_of_length_le (by omega)]
            exact List.mem_of_getLast? run.getLast_depths)
        · rw [length, Nat.sub_eq_zero_of_le (by omega)] at new
          simp at new
    · rcases Nat.lt_or_ge blocks.length expansionHeaderLookback with low | high
      · have := early low
        omega
      · omega

/-- The depth of a chain never shrinks, grows by at most one level for each block, not before the
first finalized window is full, and stops at the largest depth. -/
theorem ConsensusRun.expansion_bounded (run : ConsensusRun hashes logSlots blocks tip chain) :
    (depths logSlots blocks).getLast? = some chain.state.logSlots ∧
      ((depths logSlots blocks).IsChain fun depth next => depth ≤ next ∧ next ≤ depth + 1) ∧
      (∀ depth ∈ (depths logSlots blocks).take (expansionHeaderLookback + 1), depth = logSlots) ∧
      chain.state.logSlots ≤ max logSlots logSlotsMax ∧
      chain.state.logSlots ≤ logSlots + (blocks.length - expansionHeaderLookback) := by
  rw [← run.committed.depth_eq]
  exact ⟨run.getLast_depths, run.depths_steps, run.depth_bounds⟩

/-! ## Agreement -/

/-- Two slots with one leaf hash, or two pairs of children with one node hash, at the same place of
the trees over two slot vectors. -/
def TreesCollide (hasher : StateHasher) (first second : Nat → SlotValue) (depth : Nat) : Prop :=
  (∃ index < 2 ^ depth, first index ≠ second index ∧
    hasher.slotLeafHash (first index) = hasher.slotLeafHash (second index)) ∨
  ∃ level < depth, ∃ index,
    ¬ (subtreeRoot hasher first level (2 * index) = subtreeRoot hasher second level (2 * index) ∧
      subtreeRoot hasher first level (2 * index + 1) =
        subtreeRoot hasher second level (2 * index + 1)) ∧
    subtreeRoot hasher first (level + 1) index = subtreeRoot hasher second (level + 1) index

/-- The tips of two chains commit to their states, and if they state one root and one depth the
chains hold the same slots and the same supply, or their own two trees collide. -/
theorem ConsensusRun.states_agree {logSlots' : Nat} {blocks' : List Block} {tip' : BlockHeader}
    {chain' : ChainState} (first : ConsensusRun hashes logSlots blocks tip chain)
    (second : ConsensusRun hashes logSlots' blocks' tip' chain') :
    Committed hashes tip chain ∧ Committed hashes tip' chain' ∧
      (tip.stateRoot = tip'.stateRoot → tip.logSlots = tip'.logSlots →
        (chain.state.slot = chain'.state.slot ∧
          chain.circulatingSupplyMicronoid = chain'.circulatingSupplyMicronoid) ∨
        TreesCollide hashes.state chain.state.slot chain'.state.slot chain.state.logSlots) := by
  have here := first.committed
  have there := second.committed
  refine ⟨here, there, ?_⟩
  intro root depth
  have log : chain.state.logSlots = chain'.state.logSlots := by
    rw [← here.depth_eq, ← there.depth_eq, depth]
  have same : plainRoot hashes.state chain.state.slot chain.state.logSlots =
      plainRoot hashes.state chain'.state.slot chain.state.logSlots := by
    rw [← here.shut.root_eq, log, ← there.shut.root_eq, ← here.root_eq, ← there.root_eq, root]
  refine or_iff_not_imp_right.mpr fun free => ?_
  have slots : chain.state.slot = chain'.state.slot := by
    funext index
    rcases Nat.lt_or_ge index (2 ^ chain.state.logSlots) with low | high
    · rcases leaf_eq_or_collide same index (Nat.div_eq_of_lt low) with leaf | nodes
      · by_contra apart
        exact free (.inl ⟨index, low, apart, leaf⟩)
      · exact absurd (.inr nodes) free
    · -- beyond the domain both are empty
      rw [here.shut.sound.rep.beyond index high, there.shut.sound.rep.beyond index (log ▸ high)]
  refine ⟨slots, BitVec.eq_of_toNat_eq ?_⟩
  rw [here.settled, there.settled, slots, log]

/-! ## Supply -/

/-- What the schedule grants the blocks of a chain. -/
def rewardSum (blocks : List Block) : Nat :=
  (blocks.map fun block => blockRewardWithSchedule block.header.height.toNat
    block.header.logSlots.toNat activeSchedule).sum

/-- Below the depth of genesis the reward is that of genesis. -/
theorem blockReward_max (depth : Nat) :
    blockReward (max depth logSlotsGenesis) = blockReward depth := by
  have expansions : max depth logSlotsGenesis - logSlotsGenesis = depth - logSlotsGenesis := by
    omega
  simp only [blockReward, expansions]

theorem allocation_max (height depth : Nat) (schedule : ForkSchedule) :
    developmentAllocationWithSchedule height (max depth logSlotsGenesis) schedule =
      developmentAllocationWithSchedule height depth schedule := by
  simp only [developmentAllocationWithSchedule, developmentAllocation, blockRewardWithSchedule,
    blockReward_max]

/-- The shares not yet paid out at a height and depth. -/
def unpaid (height depth : Nat) : Nat :=
  activeSchedule.owed (fun _ => max depth logSlotsGenesis) height

/-- What an accepted block issues and leaves unpaid was unpaid before or is its own reward. -/
theorem issued_step_accepted (depth : Nat) {height depth' : Nat}
    {allocation : DevelopmentAllocation} (grows : depth ≤ depth') (deep : depth' ≤ logSlotsMax)
    (found : developmentAllocationWithSchedule (height + 1) depth' activeSchedule = .ok allocation) :
    allocation.issued + unpaid (height + 1) depth' ≤
      unpaid height depth + blockRewardWithSchedule (height + 1) depth' activeSchedule := by
  have exact : activeSchedule.ExactIntervals := by
    show ∀ activation ∈ activeSchedule.v2, 86400 % activation.blockTime = 0
    decide
  have range : logSlotsGenesis = 24 ∧ logSlotsMax = 32 := ⟨rfl, rfl⟩
  rw [← allocation_max, ForkSchedule.allocation_eq exact _ (by omega) (by omega)] at found
  have step := @ForkSchedule.issued_step _ exact
    (fun place => if place = height then max depth logSlotsGenesis else max depth' logSlotsGenesis)
    height (by simp; omega) (by simp; omega)
  have reward : blockRewardWithSchedule (height + 1) (max depth' logSlotsGenesis) activeSchedule =
      blockRewardWithSchedule (height + 1) depth' activeSchedule := by
    simp only [blockRewardWithSchedule, blockReward_max]
  simp only [ForkSchedule.owed, Nat.succ_ne_self, if_false, if_true, reward] at step
  rw [← Except.ok.inj found]
  simpa only [unpaid, ForkSchedule.owed, reward] using step

/-- The unpaid shares carry the bound from one payout to the next. -/
theorem ConsensusRun.supply_add_unpaid (run : ConsensusRun hashes logSlots blocks tip chain)
    (deep : logSlots ≤ logSlotsMax) (long : blocks.length < 2 ^ 64) :
    chain.circulatingSupplyMicronoid.toNat + unpaid tip.height.toNat tip.logSlots.toNat ≤
      rewardSum blocks := by
  induction run with
  | genesis built depth ok =>
    obtain ⟨-, height, supply⟩ := Committed.genesis built depth ok
    rw [height, supply]
    simp [unpaid, ForkSchedule.owed, ForkSchedule.openBlocks_zero]
  | @accept blocks tip chain after block root _ _ _ _ run ok ih =>
    have accepted := validateBlockConsensus_accepted ok
    have cap := (run.accept ok).depth_bounds.2.1
    rw [List.length_append, List.length_singleton] at long
    have height : block.header.height.toNat = tip.height.toNat + 1 := by
      rw [(run.accept ok).height_eq, run.height_eq, List.length_append, List.length_singleton]
      omega
    have bound := ih (by omega)
    have held := run.committed
    obtain ⟨-, grown⟩ := accepted.depth_cases held
    obtain ⟨-, allocation, found, gain⟩ := accepted.supply_le held.shut held.settled
    rw [height] at found
    have step := issued_step_accepted tip.logSlots.toNat (by rw [held.depth_eq]; omega) (by omega)
      found
    simp only [rewardSum, List.map_append, List.sum_append, List.map_singleton, List.sum_singleton,
      height] at bound ⊢
    omega

/-- The supply is the sum of the slots and stays within the rewards of the blocks. -/
theorem ConsensusRun.supply_le_rewards (run : ConsensusRun hashes logSlots blocks tip chain)
    (deep : logSlots ≤ logSlotsMax) (long : blocks.length < 2 ^ 64) :
    chain.circulatingSupplyMicronoid.toNat =
        total amountOf chain.state.slot (2 ^ chain.state.logSlots) ∧
      chain.circulatingSupplyMicronoid.toNat ≤ rewardSum blocks :=
  ⟨run.committed.settled, (Nat.le_add_right _ _).trans (run.supply_add_unpaid deep long)⟩

/-! ## Sample chains -/

/-- The blocks of some steps, accepted one after the other. -/
def extendSamples (occupancy : U64) :
    BlockHeader → ChainState → List SampleStep → Option (List Block × BlockHeader × ChainState)
  | tip, chain, [] => some ([], tip, chain)
  | tip, chain, step :: steps => do
    let block ← (step.block tip chain).toOption
    let (after, _) ← (acceptSample occupancy tip chain block).toOption
    let (blocks, last) ← extendSamples occupancy block.header after steps
    return (block :: blocks, last)

/-- The same from an empty genesis. -/
def sampleRun (logSlots : U32) (occupancy : U64) (steps : List SampleStep) :
    Option (List Block × BlockHeader × ChainState) := do
  let empty ← withLogSlots ChainHashes.sample.state logSlots.toNat
  let start := empty.applyGenesisBlock .sample ⟨sampleGenesis logSlots, []⟩
  let _ ← start.2.toOption
  extendSamples occupancy (sampleGenesis logSlots) start.1 steps

theorem ConsensusRun.extendSamples (run : ConsensusRun .sample logSlots blocks tip chain)
    {occupancy : U64} {steps : List SampleStep} {more : List Block}
    {last : BlockHeader × ChainState}
    (ran : ParanoidChain.extendSamples occupancy tip chain steps = some (more, last)) :
    ConsensusRun .sample logSlots (blocks ++ more) last.1 last.2 := by
  induction steps generalizing chain tip blocks more with
  | nil =>
    cases ran
    rwa [List.append_nil]
  | cons step steps ih =>
    simp only [ParanoidChain.extendSamples, bind_eq_some, toOption_eq_some, pure_eq_some] at ran
    obtain ⟨block, -, ⟨after, root⟩, ok, ⟨rest, _⟩, ran, same⟩ := ran
    cases same
    have extended := ih (run.accept ok) ran
    rwa [List.append_assoc, List.singleton_append] at extended

/-- A sample run is a chain. -/
theorem sampleRun_consensus {depth : U32} {occupancy : U64} {steps : List SampleStep}
    (ran : sampleRun depth occupancy steps = some (blocks, tip, chain)) :
    ConsensusRun .sample depth.toNat blocks tip chain := by
  simp only [sampleRun, bind_eq_some, toOption_eq_some] at ran
  obtain ⟨empty, built, root, opened, ran⟩ := ran
  exact (ConsensusRun.genesis built rfl (Prod.ext rfl opened)).extendSamples ran

/-- Two chains of a funding and a paying block with other nonces end in one state. -/
theorem states_agree_paid : ∃ blocks blocks' tip tip' chain chain',
    ConsensusRun .sample 2 blocks tip chain ∧ ConsensusRun .sample 2 blocks' tip' chain' ∧
      blocks.length = 2 ∧ tip ≠ tip' ∧ chain.activeSlotCount = 3 ∧
      tip.activeSlotCount = 3 ∧ tip.allocCounter = chain.allocCounter ∧
      ((chain.state.slot = chain'.state.slot ∧
        chain.circulatingSupplyMicronoid = chain'.circulatingSupplyMicronoid) ∨
      TreesCollide ChainHashes.sample.state chain.state.slot chain'.state.slot
        chain.state.logSlots) := by
  have ran : ((sampleRun 2 0 [fundingStep 0, splittingStep 0]).any fun first =>
      (sampleRun 2 0 [fundingStep 1, splittingStep 2]).any fun second =>
        decide (first.1.length = 2 ∧ first.2.1 ≠ second.2.1 ∧ first.2.2.activeSlotCount = 3 ∧
          first.2.1.stateRoot = second.2.1.stateRoot ∧
          first.2.1.logSlots = second.2.1.logSlots)) = true := by
    decide +kernel
  simp only [Option.any_eq_true, decide_eq_true_eq] at ran
  obtain ⟨⟨blocks, tip, chain⟩, ran, ⟨blocks', tip', chain'⟩, ran', length, apart, active, root,
    depth⟩ := ran
  have run := sampleRun_consensus ran
  have run' := sampleRun_consensus ran'
  obtain ⟨committed, -, agree⟩ := run.states_agree run'
  exact ⟨blocks, blocks', tip, tip', chain, chain', run, run', length, apart, active,
    committed.active_eq.trans active, committed.alloc_eq, agree root depth⟩

/-- The supply of the two blocks. -/
theorem supply_le_rewards_paid : ∃ blocks tip chain,
    ConsensusRun .sample 2 blocks tip chain ∧ blocks.length = 2 ∧
      chain.circulatingSupplyMicronoid = 1497500 ∧
      total amountOf chain.state.slot (2 ^ chain.state.logSlots) = 1497500 ∧
      1497500 ≤ rewardSum blocks := by
  have ran : ((sampleRun 2 0 [fundingStep 0, splittingStep 0]).any fun result =>
      decide (result.1.length = 2 ∧
        result.2.2.circulatingSupplyMicronoid = 1497500)) = true := by
    decide +kernel
  simp only [Option.any_eq_true, decide_eq_true_eq] at ran
  obtain ⟨⟨blocks, tip, chain⟩, ran, length, supply⟩ := ran
  have run := sampleRun_consensus ran
  have short : blocks.length < 2 ^ 64 := by
    rw [length]
    decide
  obtain ⟨sum, bound⟩ := run.supply_le_rewards (by decide) short
  have number : (1497500 : U128).toNat = 1497500 := rfl
  rw [supply, number] at sum bound
  exact ⟨blocks, tip, chain, run, length, supply, sum.symm, bound⟩

/-- Rewards into the first two slots by turns, each spent as a fee in the next block, and one level
more from block 36 on. -/
def growingSteps : List SampleStep :=
  (List.range 37).map fun index =>
    let pages := if index = 0 then []
      else [{ burnBody ⟨BitVec.ofNat 32 ((index - 1) % 2), 6000,
        coinbaseCreationId (BitVec.ofNat 64 index)⟩ with fee := 6000 }]
    ⟨if index < 35 then 2 else 3, 0, rewardBody (BitVec.ofNat 32 (index % 2)) 6000, pages⟩

/-- A chain of 37 blocks whose windows are full grows once, at its block 36. -/
theorem expansion_bounded_growing : ∃ blocks tip chain,
    ConsensusRun .sample 2 blocks tip chain ∧ blocks.length = 37 ∧ chain.state.logSlots = 3 ∧
      ((depths 2 blocks).IsChain fun depth next => depth ≤ next ∧ next ≤ depth + 1) ∧
      chain.state.logSlots ≤ 2 + (37 - expansionHeaderLookback) := by
  have ran : ((sampleRun 2 4 growingSteps).any fun result =>
      decide (result.1.length = 37 ∧ result.2.2.state.logSlots = 3)) = true := by
    decide +kernel
  simp only [Option.any_eq_true, decide_eq_true_eq] at ran
  obtain ⟨⟨blocks, tip, chain⟩, ran, length, depth⟩ := ran
  have run := sampleRun_consensus ran
  obtain ⟨-, steps, -, -, bound⟩ := run.expansion_bounded
  rw [length] at bound
  exact ⟨blocks, tip, chain, run, length, depth, steps, bound⟩

end ParanoidChain
