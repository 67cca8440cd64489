import ParanoidChain.Laws.Chain.Run
import ParanoidChain.Lib.Fresh

/-!
# Creation ids over runs

Two name spaces feed the creation ids: the allocator, which stays below `2^63`, and the height of
the block for its primary coinbase, tagged with the top bit. Every id a block mints is therefore new,
so no two occupied slots share one, and a coin that was spent is never found again by its slot and
its id.
-/

namespace ParanoidChain

open Lib

/-- The creation id of an occupied slot. -/
def SlotValue.liveId (slot : SlotValue) : Option U64 :=
  if slot = .empty then none else some slot.creationId

/-- Some live input of the block names the slot under the creation id. -/
def Block.Spends (block : Block) (slot : U32) (creationId : U64) : Prop :=
  ∃ body ∈ block.bodies, ∃ input ∈ body.spends,
    input.slotIndex = slot ∧ input.creationId = creationId

@[simp] theorem SlotValue.liveId_empty : SlotValue.empty.liveId = none := rfl

theorem SlotValue.liveId_eq_some {slot : SlotValue} {creationId : U64} :
    slot.liveId = some creationId ↔ slot ≠ .empty ∧ slot.creationId = creationId := by
  simp [liveId]

theorem liveId_minted (output : TxOutput) {creationId : U64} (fresh : creationId ≠ 0) :
    (output.minted creationId).liveId = some creationId :=
  SlotValue.liveId_eq_some.mpr
    ⟨fun empty => fresh (SlotValue.withOwnerFields_eq_empty.mp empty).2.1, by
      simp [TxOutput.minted]⟩

/-! ## The ids of a block -/

variable {height : U64} {alloc : Nat} {bodies : List TxBody} {body : TxBody}

/-- The ids the allocator gives out behind a value. -/
def allocated (alloc count : Nat) : List U64 :=
  (List.range' (alloc + 1) count).map (BitVec.ofNat 64)

theorem allocated_add (alloc first second : Nat) :
    allocated alloc (first + second) = allocated alloc first ++ allocated (alloc + first) second := by
  rw [allocated, ← List.range'_append_1, List.map_append, Nat.add_right_comm]
  rfl

theorem mem_allocated {count : Nat} {id : U64} (fits : alloc + count < 2 ^ 64) :
    id ∈ allocated alloc count ↔ alloc < id.toNat ∧ id.toNat ≤ alloc + count := by
  simp only [allocated, List.mem_map, List.mem_range'_1]
  constructor
  · rintro ⟨value, ⟨low, high⟩, rfl⟩
    rw [toNat_ofNat_of_lt (by omega)]
    omega
  · rintro ⟨low, high⟩
    exact ⟨id.toNat, by omega, by simp⟩

theorem nodup_allocated {count : Nat} (fits : alloc + count < 2 ^ 64) :
    (allocated alloc count).Nodup := by
  refine List.Nodup.map_on (fun first low second high same => ?_) List.nodup_range'
  have values := congrArg BitVec.toNat same
  rw [List.mem_range'_1] at low high
  rwa [BitVec.toNat_ofNat, toNat_ofNat_of_lt (by omega),
    Nat.mod_eq_of_lt (by omega)] at values

theorem writtenIds_spendWrites (inputs : List TxInput) :
    writtenIds SlotValue.liveId (spendWrites inputs) = [] := by
  simp [writtenIds, spendWrites]

/-- Outside the primary coinbase the ids are those of the allocator. -/
theorem writtenIds_mintWrites {outputs : List TxOutput}
    (plain : body.isPrimaryCoinbaseShape = false) (fits : alloc + outputs.length < 2 ^ 64) :
    writtenIds SlotValue.liveId (mintWrites body height alloc outputs) =
      allocated alloc outputs.length := by
  induction outputs generalizing alloc with
  | nil => rfl
  | cons output rest ih =>
    rw [List.length_cons] at fits
    have later : writtenIds _ (mintWrites body height (alloc + 1) rest) = _ := ih (by omega)
    have live : (output.minted (creationIdAt body height (alloc + 1))).liveId =
        some (BitVec.ofNat 64 (alloc + 1)) := by
      rw [creationIdAt, if_neg (by simp [plain])]
      exact liveId_minted output fun zero => by
        have value := congrArg BitVec.toNat zero
        rw [toNat_ofNat_of_lt (by omega)] at value
        simp at value
    simp only [writtenIds, mintWrites, List.filterMap_cons, live] at later ⊢
    rw [later, List.length_cons, Nat.add_comm rest.length, allocated_add]
    rfl

theorem writtenIds_blockWrites (plain : ∀ body ∈ bodies, body.isPrimaryCoinbaseShape = false)
    (fits : alloc + mintCount bodies < 2 ^ 64) :
    writtenIds SlotValue.liveId (blockWrites height alloc bodies) =
      allocated alloc (mintCount bodies) := by
  induction bodies generalizing alloc with
  | nil => rfl
  | cons body rest ih =>
    obtain ⟨here, others⟩ := List.forall_mem_cons.mp plain
    have split : mintCount (body :: rest) = body.mints.length + mintCount rest := rfl
    rw [split] at fits ⊢
    rw [blockWrites, bodyWrites, writtenIds_append, writtenIds_append, writtenIds_spendWrites,
      writtenIds_mintWrites here (by omega), ih others (by omega), List.nil_append, allocated_add]

namespace ChainState

variable {hashes : ChainHashes} {logSlots : Nat} {blocks : List Block} {chain after : ChainState}
  {block : Block} {root : Digest}

/-- The records of an applied block: one primary coinbase, and no other body of its shape. -/
theorem applyBlock_bodies (ok : chain.applyBlock hashes block = .ok (after, root)) :
    ∃ coinbase rest, block.bodies = coinbase :: rest ∧ coinbase.isPrimaryCoinbaseShape = true ∧
      ∀ body ∈ rest, body.isPrimaryCoinbaseShape = false := by
  obtain ⟨-, grown, applied, stream, stages⟩ := applyBlock_eq_ok.mp ok
  obtain ⟨coinbase, payouts, users, layout, valid⟩ :=
    validateBlockPageStream_valid stages.stream_ok
  refine ⟨coinbase.body, (payouts ++ users).map Transaction.body, by simp [Block.bodies, layout],
    valid.primary, fun body member => ?_⟩
  obtain ⟨tx, within, rfl⟩ := List.mem_map.mp member
  rcases List.mem_append.mp within with payout | user
  · exact TxBody.not_primary_of_payout (valid.payout tx payout)
  · exact TxBody.not_primary_of_user (valid.user tx user)

/-- The ids given out so far: those of the allocator, and one for each applied block. -/
def Issued (chain : ChainState) (blocks : List Block) (id : U64) : Prop :=
  id ≠ 0 ∧ (id.toNat ≤ chain.allocCounter.toNat ∨
    ∃ block ∈ blocks, id.toNat = 2 ^ 63 + block.header.height.toNat)

/-- The invariant of a run: ids stand at one place, and spent coins stay away. -/
structure Identities (blocks : List Block) (chain : ChainState) : Prop where
  tracked : Tracked SlotValue.liveId (chain.Issued blocks) chain.state.slot
  retired : ∀ block ∈ blocks, ∀ slot id, id ≠ 0 → block.Spends slot id →
    Retired SlotValue.liveId (chain.Issued blocks) chain.state.slot slot.toNat id

section Block

variable (run : BlockRun hashes logSlots blocks chain)
  (ok : chain.applyBlock hashes block = .ok (after, root))
include run ok

/-- An input with an id is found in its slot before the block, and its slot is written. -/
theorem BlockRun.spends_found {slot : U32} {id : U64} (live : id ≠ 0)
    (spends : block.Spends slot id) :
    (chain.state.slot slot.toNat).liveId = some id ∧
      slot.toNat ∈ (blockWrites block.header.height chain.allocCounter.toNat block.bodies).map
        Prod.fst := by
  have applied := applyBlock_ok run.represents.1 ok
  obtain ⟨body, within, input, spent, rfl, rfl⟩ := spends
  have fits := (accepted_iff applied.distinct).mp applied.accepted body within
  constructor
  · rw [fits.claimed input spent, SlotValue.liveId_eq_some]
    exact ⟨fun empty => live (claimed_eq_empty.mp empty).2.1, by simp [TxInput.claimed]⟩
  · rw [keys_blockWrites]
    exact List.mem_map_of_mem (List.mem_flatMap.mpr
      ⟨body, within, List.mem_append_left _ (List.mem_map_of_mem spent)⟩)

variable (higher : ∀ earlier ∈ blocks, earlier.header.height.toNat < block.header.height.toNat)
  (low : block.header.height.toNat < 2 ^ 63)
include higher low

/-- Every id a block of a run writes is new. -/
theorem BlockRun.fresh :
    Fresh SlotValue.liveId (chain.Issued blocks) (after.Issued (blocks ++ [block]))
      (blockWrites block.header.height chain.allocCounter.toNat block.bodies) := by
  have applied := applyBlock_ok run.represents.1 ok
  obtain ⟨coinbase, rest, bodies, primary, plain⟩ := applyBlock_bodies ok
  have bound := applied.alloc_lt
  have moved := applied.alloc_eq
  have tagged := toNat_coinbaseCreationId low
  have tagged_ne : coinbaseCreationId block.header.height ≠ 0 := fun zero => by
    rw [zero] at tagged
    simp at tagged
    omega
  rw [bodies, mintCount, List.map_cons, List.sum_cons, TxBody.mints_primary primary] at moved
  change after.allocCounter.toNat = chain.allocCounter.toNat + (1 + mintCount rest) at moved
  -- the coinbase moves the allocator too, although it takes its id from the height
  have ids : writtenIds SlotValue.liveId
      (blockWrites block.header.height chain.allocCounter.toNat block.bodies) =
        coinbaseCreationId block.header.height ::
          allocated (chain.allocCounter.toNat + 1) (mintCount rest) := by
    rw [bodies, blockWrites, bodyWrites, TxBody.spends_primary primary,
      TxBody.mints_primary primary, writtenIds_append, List.length_singleton,
      writtenIds_blockWrites plain (by omega)]
    simp [writtenIds, spendWrites, mintWrites, creationIdAt, primary, liveId_minted _ tagged_ne]
  have range (id : U64) : id ∈ allocated (chain.allocCounter.toNat + 1) (mintCount rest) ↔ _ :=
    mem_allocated (by omega)
  constructor
  · rw [keys_blockWrites]
    exact applied.distinct.map fun _ _ => BitVec.eq_of_toNat_eq
  · rw [ids, List.nodup_cons, range, tagged]
    exact ⟨by omega, nodup_allocated (by omega)⟩
  · rw [ids, List.forall_mem_cons]
    constructor
    · rintro ⟨-, small | ⟨earlier, member, same⟩⟩
      · omega
      · have := higher earlier member
        omega
    · rintro id member ⟨-, small | ⟨earlier, -, same⟩⟩ <;> rw [range] at member <;> omega
  · rw [ids, List.forall_mem_cons]
    refine ⟨⟨tagged_ne, .inr ⟨block, by simp, tagged⟩⟩, fun id member => ?_⟩
    rw [range] at member
    refine ⟨fun zero => ?_, .inl (by omega)⟩
    rw [zero] at member
    simp at member
  · rintro id ⟨live, small | ⟨earlier, member, same⟩⟩
    · exact ⟨live, .inl (by omega)⟩
    · exact ⟨live, .inr ⟨earlier, List.mem_append_left _ member, same⟩⟩

/-- One more block keeps the identities unique and below the counter. -/
theorem BlockRun.identities_apply (held : Identities blocks chain) :
    Identities (blocks ++ [block]) after := by
  have fresh := run.fresh ok higher low
  constructor
  · rw [run.slot_apply ok]
    exact held.tracked.overlay fresh
  · intro other member slot id live spends
    rw [run.slot_apply ok]
    rcases List.mem_append.mp member with earlier | here
    · exact (held.retired other earlier slot id live spends).overlay fresh
    · obtain rfl := List.mem_singleton.mp here
      obtain ⟨found, written⟩ := run.spends_found ok live spends
      exact held.tracked.retire fresh found written

end Block

/-- Over a run with ascending heights below `2^63`, the occupied slots carry different creation
ids, each one of the allocator's or of an applied block, and a coin that a block spends under its
slot and id is spent by no later block. -/
theorem BlockRun.identities_unique (run : BlockRun hashes logSlots blocks chain)
    (ascending : blocks.Pairwise fun earlier later =>
      earlier.header.height.toNat < later.header.height.toNat)
    (low : ∀ block ∈ blocks, block.header.height.toNat < 2 ^ 63) :
    (chain.allocCounter.toNat < 2 ^ 63 ∧
      (∀ index other, index ≠ other → chain.state.slot index ≠ .empty →
        chain.state.slot other ≠ .empty →
        (chain.state.slot index).creationId ≠ (chain.state.slot other).creationId) ∧
      ∀ index, chain.state.slot index ≠ .empty →
        (chain.state.slot index).creationId ≠ 0 ∧
        ((chain.state.slot index).creationId.toNat ≤ chain.allocCounter.toNat ∨
          ∃ block ∈ blocks,
            (chain.state.slot index).creationId.toNat = 2 ^ 63 + block.header.height.toNat)) ∧
    blocks.Pairwise fun earlier later => ∀ slot creationId, creationId ≠ 0 →
      earlier.Spends slot creationId → ¬ later.Spends slot creationId := by
  have invariant : Identities blocks chain ∧ blocks.Pairwise fun earlier later =>
      ∀ slot id, id ≠ 0 → earlier.Spends slot id → ¬ later.Spends slot id := by
    induction run with
    | start built =>
      obtain ⟨sound, -, -, resident, -⟩ := withLogSlots_sound built
      refine ⟨⟨?_, by simp⟩, .nil⟩
      rw [sound.rep.slot_eq_slots resident]
      constructor <;> simp
    | apply run ok ih =>
      obtain ⟨before, -, higher⟩ := List.pairwise_append.mp ascending
      simp only [List.mem_singleton, forall_eq] at higher
      obtain ⟨held, once⟩ := ih before fun block member => low block (List.mem_append_left _ member)
      refine ⟨run.identities_apply ok higher (low _ (by simp)) held,
        List.pairwise_append.mpr ⟨once, List.pairwise_singleton .., ?_⟩⟩
      intro earlier member later last slot id live spent again
      obtain rfl := List.mem_singleton.mp last
      exact (held.retired earlier member slot id live spent).2 (run.spends_found ok live again).1
  obtain ⟨⟨tracked, -⟩, once⟩ := invariant
  have liveId {index : Nat} (live : chain.state.slot index ≠ .empty) :=
    SlotValue.liveId_eq_some.mpr ⟨live, rfl⟩
  refine ⟨⟨run.alloc_lt, fun index other apart live live' same => ?_,
    fun index live => tracked.known (liveId live)⟩, once⟩
  exact apart (tracked.unique (liveId live) (same ▸ liveId live'))

/-- A run that spends a coin and mints into its slot again: the three occupied slots carry three ids,
and the coin that the second block spent is spent by no later block. -/
theorem identities_unique_respent :
    ∃ first second third after, BlockRun .sample 2 [first, second, third] after ∧
      second.Spends 0 (coinbaseCreationId 1) ∧ ¬ third.Spends 0 (coinbaseCreationId 1) ∧
      (∀ index < 3, after.state.slot index ≠ .empty) ∧
      (after.state.slot 0).creationId ≠ (after.state.slot 1).creationId ∧
      (after.state.slot 0).creationId ≠ (after.state.slot 2).creationId ∧
      (after.state.slot 1).creationId ≠ (after.state.slot 2).creationId := by
  obtain ⟨first, second, third, after, run, one, two, three, -, bodies, -, live⟩ := respent_run
  have held := run.identities_unique (by simp [one, two, three]) (by simp [one, two, three])
  have spends : second.Spends 0 (coinbaseCreationId 1) := by
    rw [Block.Spends, bodies]
    decide +kernel
  have later := (List.pairwise_cons.mp (List.pairwise_cons.mp held.2).2).1 third List.mem_cons_self
  exact ⟨first, second, third, after, run, spends, later 0 _ (by decide) spends, live,
    held.1.2.1 0 1 (by decide) (live 0 (by decide)) (live 1 (by decide)),
    held.1.2.1 0 2 (by decide) (live 0 (by decide)) (live 2 (by decide)),
    held.1.2.1 1 2 (by decide) (live 1 (by decide)) (live 2 (by decide))⟩

end ChainState

end ParanoidChain
