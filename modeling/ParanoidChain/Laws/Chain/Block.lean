import ParanoidChain.Chain.ApplyBlock
import ParanoidChain.Laws.Chain.Apply
import ParanoidChain.Laws.Chain.PageStream

/-!
# What applying a block does

A block grows the slot domain, applies its bodies in order and seals the result. `blockWrites` is the
batch of slot writes of all bodies, with the allocator threaded through them, and `Accepted` says
that every body found its inputs and its free slots in the vector the bodies before it left.

These facts need no more than that the store represents the slot vector: they also hold for a state
whose root cache is behind, so money and identities do not depend on the roots.
-/

namespace ParanoidChain

open Lib

/-! ## The records of a block -/

def Block.bodies (block : Block) : List TxBody := block.transactions.map Transaction.body

/-- The number of live inputs. -/
def spendCount (bodies : List TxBody) : Nat := (bodies.map (·.spends.length)).sum

/-- The number of live outputs. -/
def mintCount (bodies : List TxBody) : Nat := (bodies.map (·.mints.length)).sum

/-- The slots the live records name, in order. -/
def touchedSlots (bodies : List TxBody) : List U32 := bodies.flatMap TxBody.touched

/-- The writes of the bodies, from an allocator value on. -/
def blockWrites (height : U64) : Nat → List TxBody → List (Nat × SlotValue)
  | _, [] => []
  | alloc, body :: rest =>
    bodyWrites height alloc body ++ blockWrites height (alloc + body.mints.length) rest

@[simp] theorem keys_blockWrites (height : U64) (alloc : Nat) (bodies : List TxBody) :
    (blockWrites height alloc bodies).map Prod.fst = (touchedSlots bodies).map (·.toNat) := by
  induction bodies generalizing alloc with
  | nil => rfl
  | cons body rest ih => simp [blockWrites, touchedSlots, ih]

/-- What a body asks of the slot vector. -/
structure TxBody.Accepts (body : TxBody) (slots : Nat → SlotValue) : Prop where
  distinct : body.touched.Nodup
  claimed : ∀ input ∈ body.spends, slots input.slotIndex.toNat = input.claimed body.inputOwner
  free : ∀ output ∈ body.mints, slots output.slotIndex.toNat = .empty

/-- Each body finds what it asks for in the vector the bodies before it leave. -/
def Accepted (height : U64) : (Nat → SlotValue) → Nat → List TxBody → Prop
  | _, _, [] => True
  | slots, alloc, body :: rest =>
    body.Accepts slots ∧
      Accepted height (overlay slots (bodyWrites height alloc body)) (alloc + body.mints.length) rest

/-- The block-wide slot set is one loop over all touched slots. -/
theorem foldlM_touchSlots (txs : List Transaction) (touched : List U32) :
    txs.foldlM touchSlots touched =
      (touchedSlots (txs.map Transaction.body)).foldlM
        (fun seen slot => insertFresh ConsensusError.slotConflict seen slot) touched := by
  induction txs generalizing touched with
  | nil => rfl
  | cons tx rest ih =>
    have here : touchSlots touched tx = tx.body.touched.foldlM
        (fun seen slot => insertFresh ConsensusError.slotConflict seen slot) touched := by
      simp only [touchSlots, TxBody.touched, TxBody.spends, TxBody.mints, List.foldlM_append,
        List.foldlM_map]
    simp only [List.foldlM_cons, here, ih, touchedSlots, List.map_cons, List.flatMap_cons,
      List.foldlM_append]

/-- The block-wide conflict check is that no slot is touched twice. -/
theorem validateBlockSlotConflicts_eq_ok {txs : List Transaction} {done : Unit} :
    validateBlockSlotConflicts txs = .ok done ↔
      (touchedSlots (txs.map Transaction.body)).Nodup := by
  simp only [validateBlockSlotConflicts, bind_eq_ok, foldlM_touchSlots, pure_eq_ok]
  constructor
  · rintro ⟨found, collected, -⟩
    simpa using (foldlM_insertFresh (f := id).mp collected).1
  · intro nodup
    exact ⟨_, foldlM_insertFresh (f := id).mpr ⟨by simpa using nodup, by simp, rfl⟩, trivial⟩

namespace SegmentedFriState

/-- Asking for the root of whatever segment keeps the vector. -/
theorem Represents.exactSegmentRoot_fst {hasher : StateHasher} {state : SegmentedFriState}
    {slots : Nat → SlotValue} (rep : Represents hasher state slots) (segId : Nat) :
    Represents hasher (state.exactSegmentRoot hasher segId).1 slots ∧
      (state.exactSegmentRoot hasher segId).1.logSlots = state.logSlots ∧
      (state.exactSegmentRoot hasher segId).1.evicted = state.evicted := by
  by_cases answered : segId < state.numSegments ∧ segId ∉ state.evicted
  · obtain ⟨read, run, rep, log, evicted, -⟩ := rep.exactSegmentRoot answered.1 answered.2
    rw [run]
    exact ⟨rep, log, evicted⟩
  · -- an evicted segment is refused, and a segment out of range holds no columns
    have same : (state.exactSegmentRoot hasher segId).1 = state := by
      unfold SegmentedFriState.exactSegmentRoot
      split
      · rfl
      · rename_i present
        have present : segId ∉ state.evicted := by simpa [isEvicted] using present
        split
        · rfl
        · rfl
        · rename_i found
          exact absurd ⟨rep.tryGet_lt found, present⟩ answered
    rw [same]
    exact ⟨rep, rfl, rfl⟩

end SegmentedFriState

namespace ChainState

variable {hasher : StateHasher} {hashes : ChainHashes} {chain after : ChainState}
  {slots : Nat → SlotValue} {height : U64} {bodies : List TxBody} {block : Block}

/-! ## Growing and sealing -/

/-- A change of the root hierarchy and of the depth that leaves vector, residency and counters. -/
structure Keeps (hasher : StateHasher) (slots : Nat → SlotValue) (before after : ChainState) :
    Prop where
  rep : after.state.Represents hasher slots
  evicted_eq : after.state.evicted = before.state.evicted
  active_eq : after.activeSlotCount = before.activeSlotCount
  alloc_eq : after.allocCounter = before.allocCounter
  supply_eq : after.circulatingSupplyMicronoid = before.circulatingSupplyMicronoid

theorem Keeps.refl (rep : chain.state.Represents hasher slots) : Keeps hasher slots chain chain :=
  ⟨rep, rfl, rfl, rfl, rfl⟩

theorem Keeps.trans {middle : ChainState} (first : Keeps hasher slots chain middle)
    (second : Keeps hasher slots middle after) : Keeps hasher slots chain after :=
  ⟨second.rep, second.evicted_eq.trans first.evicted_eq, second.active_eq.trans first.active_eq,
    second.alloc_eq.trans first.alloc_eq, second.supply_eq.trans first.supply_eq⟩

section

variable (rep : chain.state.Represents hasher slots)
include rep

theorem expandOne_keeps (expanded : chain.expandOne hasher = some after) :
    Keeps hasher slots chain after ∧ after.state.logSlots = chain.state.logSlots + 1 := by
  simp only [expandOne, bind_eq_some, pure_eq_some] at expanded
  obtain ⟨state, stepped, rfl⟩ := expanded
  obtain ⟨rep, log, evicted, -⟩ := rep.expand stepped
  split
  · exact ⟨⟨rep.congr rfl rfl rfl rfl rfl rfl rfl, evicted, rfl, rfl, rfl⟩, log⟩
  · exact ⟨⟨rep, evicted, rfl, rfl, rfl⟩, log⟩

theorem expandLoop_keeps {rounds : Nat} (expanded : chain.expandLoop hasher rounds = some after) :
    Keeps hasher slots chain after ∧ after.state.logSlots = chain.state.logSlots + rounds := by
  induction rounds generalizing chain with
  | zero =>
    obtain rfl := Option.some.inj expanded
    exact ⟨.refl rep, rfl⟩
  | succ rounds ih =>
    obtain ⟨middle, first, rest⟩ := Option.bind_eq_some_iff.mp expanded
    obtain ⟨one, log⟩ := expandOne_keeps rep first
    obtain ⟨more, logs⟩ := ih one.rep rest
    exact ⟨one.trans more, by omega⟩

/-- The growth loop ends at the target, or at once when the store is as deep. -/
theorem expandTo_keeps {target : Nat} (expanded : chain.expandTo hasher target = some after) :
    Keeps hasher slots chain after ∧ after.state.logSlots = max target chain.state.logSlots := by
  obtain ⟨keeps, log⟩ := expandLoop_keeps rep expanded
  exact ⟨keeps, by omega⟩

end

theorem refreshSegments_keeps (pending : List Nat) (chain : ChainState)
    (rep : chain.state.Represents hasher slots) :
    Keeps hasher slots chain (refreshSegments hasher pending chain).1 ∧
      (refreshSegments hasher pending chain).1.state.logSlots = chain.state.logSlots := by
  induction pending generalizing chain with
  | nil => exact ⟨.refl rep, rfl⟩
  | cons segId rest ih =>
    obtain ⟨read, log, evicted⟩ := rep.exactSegmentRoot_fst segId
    rw [refreshSegments]
    rcases run : chain.state.exactSegmentRoot hasher segId with ⟨state, result⟩
    rw [run] at read log evicted
    cases result with
    | error error => exact ⟨⟨read, evicted, rfl, rfl, rfl⟩, log⟩
    | ok root =>
      obtain ⟨more, logs⟩ := ih
        { chain with state, exactRoots := chain.exactRoots.setSegmentRoot hasher segId root } read
      exact ⟨⟨more.rep, more.evicted_eq.trans evicted, more.active_eq, more.alloc_eq,
        more.supply_eq⟩, logs.trans log⟩

/-- Sealing a state keeps everything but the roots. -/
theorem tryStateRoot_keeps (rep : chain.state.Represents hasher slots) :
    Keeps hasher slots chain (chain.tryStateRoot hasher).1 ∧
      (chain.tryStateRoot hasher).1.state.logSlots = chain.state.logSlots := by
  have refreshed := refreshSegments_keeps (chain.resizeExactRoots hasher).refreshOrder
    (chain.resizeExactRoots hasher) rep
  simp only [tryStateRoot]
  rcases run : refreshSegments hasher (chain.resizeExactRoots hasher).refreshOrder
    (chain.resizeExactRoots hasher) with ⟨state, result⟩
  rw [run] at refreshed
  obtain ⟨keeps, log⟩ := refreshed
  cases result with
  | error error =>
    exact ⟨⟨keeps.rep, keeps.evicted_eq, keeps.active_eq, keeps.alloc_eq, keeps.supply_eq⟩, log⟩
  | ok _ =>
    exact ⟨⟨keeps.rep.congr rfl rfl rfl rfl rfl rfl rfl, keeps.evicted_eq, keeps.active_eq,
      keeps.alloc_eq, keeps.supply_eq⟩, log⟩

/-! ## The bodies -/

/-- `apply_tx_checked_deferred_root` folded over some bodies. -/
def applyBodies (hasher : StateHasher) (height : U64) (chain : ChainState)
    (bodies : List TxBody) : Except (Fault ApplyError) ChainState :=
  bodies.foldlM (fun chain body => chain.applyTxCheckedDeferredRoot hasher body (some height)) chain

theorem applyBodies_cons {body : TxBody} {rest : List TxBody} :
    chain.applyBodies hasher height (body :: rest) = .ok after ↔
      ∃ middle, chain.applyTxCheckedDeferredRoot hasher body (some height) = .ok middle ∧
        middle.applyBodies hasher height rest = .ok after :=
  foldlM_cons_eq_ok

/-- What a run of bodies leaves behind, and what it found. -/
structure AppliedBodies (hasher : StateHasher) (slots : Nat → SlotValue) (height : U64)
    (chain after : ChainState) (bodies : List TxBody) : Prop where
  rep : after.state.Represents hasher
    (overlay slots (blockWrites height chain.allocCounter.toNat bodies))
  wrote : chain.state.Wrote after.state slots
    (overlay slots (blockWrites height chain.allocCounter.toNat bodies))
  accepted : Accepted height slots chain.allocCounter.toNat bodies
  available : ∀ slot ∈ touchedSlots bodies, slot.toNat < 2 ^ chain.state.logSlots ∧
    chain.state.segIdOf slot.toNat ∉ chain.state.evicted
  active_eq : after.activeSlotCount.toNat + spendCount bodies =
    chain.activeSlotCount.toNat + mintCount bodies
  alloc_eq : after.allocCounter.toNat = chain.allocCounter.toNat + mintCount bodies
  alloc_lt : bodies ≠ [] → after.allocCounter.toNat < 2 ^ 63
  supply_eq : after.circulatingSupplyMicronoid.toNat +
      total amountOf slots (2 ^ chain.state.logSlots) =
    chain.circulatingSupplyMicronoid.toNat +
      total amountOf (overlay slots (blockWrites height chain.allocCounter.toNat bodies))
        (2 ^ chain.state.logSlots)
  utxoRoot_eq : after.utxoRoot = chain.utxoRoot
  exactRoots_eq : after.exactRoots = chain.exactRoots

/-- One body, in the terms of a run. -/
theorem applyTx_step {body : TxBody} (rep : chain.state.Represents hasher slots)
    (ok : chain.applyTxCheckedDeferredRoot hasher body (some height) = .ok after) :
    Applicable chain slots body height ∧ Applied hasher chain after body height ∧
      after.state.Represents hasher
        (overlay slots (bodyWrites height chain.allocCounter.toNat body)) ∧
      chain.state.Wrote after.state slots
        (overlay slots (bodyWrites height chain.allocCounter.toNat body)) := by
  obtain ⟨fits, applied⟩ := applyTx_ok rep ok
  obtain ⟨inside, written⟩ := SegmentedFriState.applyDeltaUnrooted_eq_ok.mp applied.writes
  have moved := rep.foldl_writeSlot inside
    (forall_bodyWrites (fun index => chain.state.segIdOf index ∉ chain.state.evicted)
      (fun slot touched => (fits.available slot touched).2) height chain.allocCounter.toNat)
  rw [written] at moved
  exact ⟨fits, applied, moved⟩

theorem applyBodies_ok (rep : chain.state.Represents hasher slots)
    (ok : chain.applyBodies hasher height bodies = .ok after) :
    AppliedBodies hasher slots height chain after bodies := by
  induction bodies generalizing chain slots with
  | nil =>
    obtain rfl : chain = after := by simpa [applyBodies] using ok
    exact ⟨rep, .refl .., trivial, by simp [touchedSlots], by simp [spendCount, mintCount],
      by simp [mintCount], by simp, rfl, rfl, rfl⟩
  | cons body rest ih =>
    obtain ⟨middle, first, later⟩ := applyBodies_cons.mp ok
    obtain ⟨fits, applied, rep', wrote⟩ := applyTx_step rep first
    have more := ih rep' later
    have alloc := applied.alloc_eq
    obtain ⟨inside, -⟩ := SegmentedFriState.applyDeltaUnrooted_eq_ok.mp applied.writes
    have moved := supplyAfterSlotUpdates_eq rep inside applied.supply_eq
    have writes : overlay slots (blockWrites height chain.allocCounter.toNat (body :: rest)) =
        overlay (overlay slots (bodyWrites height chain.allocCounter.toNat body))
          (blockWrites height middle.allocCounter.toNat rest) := by
      rw [blockWrites, overlay_append, alloc]
    have supply := more.supply_eq
    rw [wrote.logSlots_eq] at supply
    refine ⟨?_, ?_, ⟨⟨fits.distinct, fits.claimed, fits.free⟩, alloc ▸ more.accepted⟩, ?_, ?_, ?_, ?_,
      ?_, more.utxoRoot_eq.trans applied.utxoRoot_eq,
      more.exactRoots_eq.trans applied.exactRoots_eq⟩
    · rw [writes]
      exact more.rep
    · rw [writes]
      exact wrote.trans more.wrote
    · simp only [touchedSlots, List.flatMap_cons, List.forall_mem_append]
      refine ⟨fits.available, fun slot touched => ?_⟩
      have there := more.available slot touched
      rw [wrote.logSlots_eq, wrote.evicted_iff, SegmentedFriState.segIdOf, wrote.segmentLog_eq]
        at there
      exact there
    · have active := applied.active_eq
      have actives := more.active_eq
      simp only [spendCount, mintCount, List.map_cons, List.sum_cons] at actives ⊢
      omega
    · have allocs := more.alloc_eq
      simp only [mintCount, List.map_cons, List.sum_cons] at allocs ⊢
      omega
    · intro _
      by_cases none : rest = []
      · have stop := more.alloc_eq
        have small := fits.alloc_lt
        simp only [none, mintCount, List.map_nil, List.sum_nil, Nat.add_zero] at stop
        omega
      · exact more.alloc_lt none
    · rw [writes]
      omega

/-! ## The block -/

/-- The loop of a block is the run of its bodies, with the system records checked. -/
theorem foldlM_applyBlockTx {userStartIndex start : Nat} {txs : List Transaction} :
    (txs.zipIdx start).foldlM (applyBlockTx hasher height userStartIndex) chain = .ok after ↔
      (∀ entry ∈ txs.zipIdx start, checkSystemBody userStartIndex entry = .ok ()) ∧
        chain.applyBodies hasher height (txs.map Transaction.body) = .ok after := by
  induction txs generalizing chain start with
  | nil => simp [applyBodies]
  | cons tx rest ih =>
    simp only [List.zipIdx_cons, foldlM_cons_eq_ok, applyBlockTx, bind_eq_ok, mapError_ok_iff, ih,
      List.forall_mem_cons, List.map_cons, applyBodies_cons]
    constructor
    · rintro ⟨middle, ⟨_, system, applied⟩, systems, later⟩
      exact ⟨⟨system, systems⟩, middle, applied, later⟩
    · rintro ⟨⟨system, systems⟩, middle, applied, later⟩
      exact ⟨middle, ⟨(), system, applied⟩, systems, later⟩

/-- What the header has to say about the sealed state. -/
structure Sealed (hashes : ChainHashes) (chain after : ChainState) (block : Block) : Prop where
  after_eq : (chain.tryStateRoot hashes.state).1 = after
  root_ok : (chain.tryStateRoot hashes.state).2 = .ok block.header.stateRoot
  active_eq : block.header.activeSlotCount = after.activeSlotCount
  alloc_eq : block.header.allocCounter = after.allocCounter
  logSlots_eq : block.header.logSlots = BitVec.ofNat 32 after.state.logSlots
  txRoot_ok : tryComputeTxRoot hashes block.transactions = .ok block.header.txRoot

/-- Sealing succeeds exactly when the header says what the state is. -/
theorem sealBlock_eq_ok :
    chain.sealBlock hashes block = .ok after ↔ Sealed hashes chain after block := by
  rcases run : chain.tryStateRoot hashes.state with ⟨rooted, result⟩
  simp only [sealBlock, run, bind_eq_ok, mapError_ok_iff, reject_eq_ok, pure_eq_ok, not_not,
    exists_const]
  constructor
  · rintro ⟨root, ok, rfl, active, alloc, depth, txRoot, computed, rfl, rfl⟩
    exact ⟨by rw [run], by rw [run, ok], active, alloc, depth, computed⟩
  · rintro ⟨same, ok, active, alloc, depth, computed⟩
    rw [run] at same ok
    obtain rfl : rooted = after := same
    exact ⟨_, ok, rfl, active, alloc, depth, _, computed, rfl, rfl⟩

/-- The stages of a successful `apply_block`. -/
structure BlockStages (hashes : ChainHashes) (chain grown applied after : ChainState)
    (block : Block) (stream : BlockPageStreamFacts) : Prop where
  length_le : block.transactions.length ≤ blockMaxTxs
  stream_ok : validateBlockPageStream hashes.tx block.transactions = .ok stream
  distinct : (touchedSlots block.bodies).Nodup
  noInputs : ∀ tx ∈ block.transactions.take stream.userStartIndex, tx.body.liveInputCount = 0
  grown_eq : chain.expandTo hashes.state block.header.logSlots.toNat = some grown
  system : ∀ entry ∈ block.transactions.zipIdx,
    checkSystemBody stream.userStartIndex entry = .ok ()
  applied_eq : grown.applyBodies hashes.state block.header.height block.bodies = .ok applied
  sealed : Sealed hashes applied after block

/-- An applied block went through every stage. -/
theorem applyBlock_eq_ok {root : Digest} :
    chain.applyBlock hashes block = .ok (after, root) ↔
      root = after.utxoRoot ∧
        ∃ grown applied stream, BlockStages hashes chain grown applied after block stream := by
  simp only [applyBlock, bind_eq_ok, mapError_ok_iff, reject_eq_ok, okOr_eq_ok, pure_eq_ok,
    forM_eq_ok, foldlM_applyBlockTx, sealBlock_eq_ok, validateBlockSlotConflicts_eq_ok, not_not,
    Nat.not_lt, exists_const]
  constructor
  · rintro ⟨few, stream, valid, nodup, inputs, grown, expanded, applied, ⟨system, ran⟩, _, shut,
      same⟩
    obtain ⟨rfl, rfl⟩ := Prod.mk.inj same
    exact ⟨rfl, grown, applied, stream, few, valid, nodup, inputs, expanded, system, ran, shut⟩
  · rintro ⟨rfl, grown, applied, stream, stages⟩
    exact ⟨stages.length_le, stream, stages.stream_ok, stages.distinct, stages.noInputs, grown,
      stages.grown_eq, applied, ⟨stages.system, stages.applied_eq⟩, after, stages.sealed, rfl⟩

/-- What a block leaves behind, and what it found. -/
structure AppliedBlock (hashes : ChainHashes) (slots : Nat → SlotValue) (chain after : ChainState)
    (block : Block) : Prop where
  distinct : (touchedSlots block.bodies).Nodup
  rep : after.state.Represents hashes.state
    (overlay slots (blockWrites block.header.height chain.allocCounter.toNat block.bodies))
  logSlots_eq : after.state.logSlots = max block.header.logSlots.toNat chain.state.logSlots
  evicted_iff : ∀ id, id ∈ after.state.evicted ↔ id ∈ chain.state.evicted
  accepted : Accepted block.header.height slots chain.allocCounter.toNat block.bodies
  inside : ∀ slot ∈ touchedSlots block.bodies, slot.toNat < 2 ^ after.state.logSlots
  active_eq : after.activeSlotCount.toNat + spendCount block.bodies =
    chain.activeSlotCount.toNat + mintCount block.bodies
  alloc_eq : after.allocCounter.toNat = chain.allocCounter.toNat + mintCount block.bodies
  alloc_lt : after.allocCounter.toNat < 2 ^ 63
  supply_eq : after.circulatingSupplyMicronoid.toNat +
      total amountOf slots (2 ^ chain.state.logSlots) =
    chain.circulatingSupplyMicronoid.toNat +
      total amountOf (overlay slots
        (blockWrites block.header.height chain.allocCounter.toNat block.bodies))
        (2 ^ after.state.logSlots)

/-- The stages together, as one effect on the slots. -/
theorem BlockStages.appliedBlock {grown applied : ChainState} {stream : BlockPageStreamFacts}
    (stages : BlockStages hashes chain grown applied after block stream)
    (rep : chain.state.Represents hashes.state slots) :
    AppliedBlock hashes slots chain after block := by
  obtain ⟨grew, grownLog⟩ := expandTo_keeps rep stages.grown_eq
  have ran := applyBodies_ok grew.rep stages.applied_eq
  have sameAlloc := grew.alloc_eq
  obtain ⟨shut, shutLog⟩ := tryStateRoot_keeps ran.rep
  rw [stages.sealed.after_eq] at shut shutLog
  have log : after.state.logSlots = grown.state.logSlots := shutLog.trans ran.wrote.logSlots_eq
  have some : block.bodies ≠ [] := by
    obtain ⟨coinbase, payouts, users, layout, -⟩ := validateBlockPageStream_valid stages.stream_ok
    simp [Block.bodies, layout]
  -- the upper half a block grows into is empty
  have wider := rep.total_wider (show _ ≤ grown.state.logSlots by omega) amountOf_empty
  exact {
    distinct := stages.distinct
    rep := sameAlloc ▸ shut.rep
    logSlots_eq := log.trans grownLog
    evicted_iff := fun id => by
      rw [shut.evicted_eq, ran.wrote.evicted_iff, grew.evicted_eq]
    accepted := sameAlloc ▸ ran.accepted
    inside := fun slot touched => log ▸ (ran.available slot touched).1
    active_eq := by
      rw [shut.active_eq, ran.active_eq, grew.active_eq]
    alloc_eq := by
      rw [shut.alloc_eq, ran.alloc_eq, grew.alloc_eq]
    alloc_lt := by
      rw [shut.alloc_eq]
      exact ran.alloc_lt some
    supply_eq := by
      have moved := ran.supply_eq
      rw [wider, grew.supply_eq, sameAlloc] at moved
      rw [shut.supply_eq, log]
      exact moved }

end ChainState

end ParanoidChain
