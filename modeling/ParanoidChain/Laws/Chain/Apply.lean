import ParanoidChain.Chain.Apply
import ParanoidChain.Laws.Chain.Supply

/-!
# What applying a body does

`bodyWrites` is the batch of slot writes a body stands for: its spends empty their slots, its mints
fill theirs under fresh creation ids. Applying a body to a state succeeds exactly when the body is
`Applicable`, and then leaves the overlaid vector and the counters moved by the numbers of spends
and mints (`Applied`).
-/

namespace ParanoidChain

open Lib

/-! ## Creation ids -/

theorem isCoinbaseCreationId_iff {creationId : U64} :
    isCoinbaseCreationId creationId = true ↔ 2 ^ 63 ≤ creationId.toNat := by
  have tag : coinbaseCreationTag.toNat = 2 ^ 63 := by decide
  rw [isCoinbaseCreationId, bne_iff_ne, ne_eq, ← BitVec.toNat_inj, BitVec.toNat_and, tag,
    Nat.and_two_pow, Nat.testBit_eq_decide_div_mod_eq]
  have := creationId.isLt
  simp only [BitVec.ofNat_eq_ofNat, BitVec.toNat_ofNat, Nat.zero_mod, Nat.mul_eq_zero,
    Nat.pow_eq_zero, OfNat.ofNat_ne_zero, ne_eq, not_false_eq_true, and_true, or_false,
    Bool.toNat_eq_zero, decide_eq_false_iff_not, not_not]
  omega

theorem toNat_coinbaseCreationId {height : U64} (small : height.toNat < 2 ^ 63) :
    (coinbaseCreationId height).toNat = 2 ^ 63 + height.toNat := by
  have tag : coinbaseCreationTag.toNat = 1 <<< 63 := by decide
  rw [coinbaseCreationId, BitVec.toNat_or, tag, ← Nat.shiftLeft_add_eq_or_of_lt small]
  rfl

/-! ## The writes of a body -/

/-- The creation id of the mint that moves the allocator to `count`. -/
def creationIdAt (body : TxBody) (height : U64) (count : Nat) : U64 :=
  if body.isPrimaryCoinbaseShape then coinbaseCreationId height else BitVec.ofNat 64 count

/-- The writes of some outputs of a body, from an allocator value on. -/
def mintWrites (body : TxBody) (height : U64) : Nat → List TxOutput → List (Nat × SlotValue)
  | _, [] => []
  | alloc, output :: rest =>
    (output.slotIndex.toNat, output.minted (creationIdAt body height (alloc + 1))) ::
      mintWrites body height (alloc + 1) rest

/-- The writes of some inputs. -/
def spendWrites (inputs : List TxInput) : List (Nat × SlotValue) :=
  inputs.map fun input => (input.slotIndex.toNat, .empty)

/-- The writes of a whole body. -/
def bodyWrites (height : U64) (alloc : Nat) (body : TxBody) : List (Nat × SlotValue) :=
  spendWrites body.spends ++ mintWrites body height alloc body.mints

/-- The slots the live records of a body name. -/
def TxBody.touched (body : TxBody) : List U32 :=
  body.spends.map (·.slotIndex) ++ body.mints.map (·.slotIndex)

@[simp] theorem keys_mintWrites (body : TxBody) (height : U64) (alloc : Nat)
    (outputs : List TxOutput) : (mintWrites body height alloc outputs).map Prod.fst =
      outputs.map (·.slotIndex.toNat) := by
  induction outputs generalizing alloc with
  | nil => rfl
  | cons output rest ih => simp [mintWrites, ih]

@[simp] theorem keys_spendWrites (inputs : List TxInput) :
    (spendWrites inputs).map Prod.fst = inputs.map (·.slotIndex.toNat) := by
  simp [spendWrites]

/-- A body writes exactly the slots it touches. -/
@[simp] theorem keys_bodyWrites (height : U64) (alloc : Nat) (body : TxBody) :
    (bodyWrites height alloc body).map Prod.fst = body.touched.map (·.toNat) := by
  simp [bodyWrites, TxBody.touched, Function.comp_def]

/-- What holds of every touched slot holds of every written index. -/
theorem forall_bodyWrites (P : Nat → Prop) {body : TxBody}
    (held : ∀ slot ∈ body.touched, P slot.toNat) (height : U64) (alloc : Nat) :
    ∀ write ∈ bodyWrites height alloc body, P write.1 := by
  intro write member
  have named := List.mem_map_of_mem (f := Prod.fst) member
  rw [keys_bodyWrites] at named
  obtain ⟨slot, touched, same⟩ := List.mem_map.mp named
  exact same ▸ held slot touched

namespace ChainState

variable {hasher : StateHasher} {chain after : ChainState} {slots : Nat → SlotValue}
  {body : TxBody} {height : U64}

/-! ## The loops -/

theorem checkSlotAvailable_eq_ok {slot : U32} {done : Unit} :
    chain.checkSlotAvailable slot = .ok done ↔
      slot.toNat < 2 ^ chain.state.logSlots ∧
        chain.state.segIdOf slot.toNat ∉ chain.state.evicted := by
  simp only [checkSlotAvailable, bind_eq_ok, reject_eq_ok, exists_const, Nat.not_le,
    SegmentedFriState.isEvicted, decide_eq_true_eq]
  rfl

theorem foldlM_checkOutputSlot {inputSlots seen found : List U32} {entries : List (Nat × TxOutput)} :
    entries.foldlM (checkOutputSlot inputSlots) seen = .ok found ↔
      ((entries.map (·.2.slotIndex)).Nodup ∧ (∀ entry ∈ entries, entry.2.slotIndex ∉ seen) ∧
        (entries.map (·.2.slotIndex)).reverse ++ seen = found) ∧
      ∀ entry ∈ entries, entry.2.slotIndex ∉ inputSlots :=
  foldlM_insertApart

theorem mintOutput_eq_ok {cursor next : U64 × List (Nat × SlotValue)} {entry : Nat × TxOutput} :
    chain.mintOutput body (some height) cursor entry = .ok next ↔
      (chain.checkSlotAvailable entry.2.slotIndex = .ok () ∧
        chain.state.slot entry.2.slotIndex.toNat = .empty) ∧
      cursor.1.toNat + 1 = next.1.toNat ∧
      next.2 = cursor.2 ++ mintWrites body height cursor.1.toNat [entry.2] := by
  have creation (count : U64) : outputCreationId body (some height) count =
      .ok (creationIdAt body height count.toNat) := by
    unfold outputCreationId creationIdAt
    split
    · rfl
    · rw [BitVec.ofNat_toNat, BitVec.setWidth_eq]
      rfl
  simp only [mintOutput, bind_eq_ok, reject_eq_ok, okOr_eq_ok, pure_eq_ok, checkedAdd_eq_some,
    not_not, creation, mintWrites, exists_const, Except.ok.injEq]
  constructor
  · rintro ⟨_, available, free, count, moved, _, rfl, rfl⟩
    refine ⟨⟨available, free⟩, moved, ?_⟩
    rw [← moved]
    rfl
  · rintro ⟨⟨available, free⟩, moved, same⟩
    refine ⟨(), available, free, next.1, moved, _, rfl, Prod.ext rfl ?_⟩
    rw [same, ← moved]

/-- The mint loop succeeds when every output slot is available and free, and the allocator does not
leave its word. -/
theorem foldlM_mintOutput {cursor next : U64 × List (Nat × SlotValue)}
    {entries : List (Nat × TxOutput)} :
    entries.foldlM (chain.mintOutput body (some height)) cursor = .ok next ↔
      (∀ entry ∈ entries, chain.checkSlotAvailable entry.2.slotIndex = .ok () ∧
        chain.state.slot entry.2.slotIndex.toNat = .empty) ∧
      cursor.1.toNat + entries.length = next.1.toNat ∧
      next.2 = cursor.2 ++ mintWrites body height cursor.1.toNat (entries.map Prod.snd) := by
  induction entries generalizing cursor with
  | nil =>
    simp only [List.foldlM_nil, pure_eq_ok, List.map_nil, mintWrites, List.append_nil,
      List.length_nil, Nat.add_zero]
    constructor
    · rintro rfl
      simp
    · rintro ⟨-, same, deltas⟩
      exact Prod.ext (BitVec.eq_of_toNat_eq same) deltas.symm
  | cons entry rest ih =>
    simp only [foldlM_cons_eq_ok, mintOutput_eq_ok, ih, List.forall_mem_cons, List.map_cons,
      List.length_cons]
    constructor
    · rintro ⟨middle, ⟨here, moved, deltas⟩, others, moved', deltas'⟩
      refine ⟨⟨here, others⟩, by omega, ?_⟩
      rw [deltas', deltas, ← moved, List.append_assoc]
      rfl
    · rintro ⟨⟨here, others⟩, moved, deltas⟩
      have fits : cursor.1.toNat + 1 < 2 ^ 64 := by
        have := next.1.isLt
        omega
      have next' : (cursor.1 + 1).toNat = cursor.1.toNat + 1 := by
        rw [BitVec.toNat_add, Nat.mod_eq_of_lt (by simpa using fits)]
        rfl
      refine ⟨(cursor.1 + 1, cursor.2 ++ mintWrites body height cursor.1.toNat [entry.2]),
        ⟨here, next'.symm, rfl⟩, others, by rw [next']; omega, ?_⟩
      rw [deltas, next', List.append_assoc]
      rfl

/-! ## One body -/

/-- What a body must meet to be applied to a state that holds the vector. -/
structure Applicable (chain : ChainState) (slots : Nat → SlotValue) (body : TxBody)
    (height : U64) : Prop where
  distinct : body.touched.Nodup
  available : ∀ slot ∈ body.touched, slot.toNat < 2 ^ chain.state.logSlots ∧
    chain.state.segIdOf slot.toNat ∉ chain.state.evicted
  claimed : ∀ input ∈ body.spends, slots input.slotIndex.toNat = input.claimed body.inputOwner
  free : ∀ output ∈ body.mints, slots output.slotIndex.toNat = .empty
  active_ge : body.spends.length ≤ chain.activeSlotCount.toNat
  active_lt : chain.activeSlotCount.toNat - body.spends.length + body.mints.length < 2 ^ 64
  alloc_lt : chain.allocCounter.toNat + body.mints.length < 2 ^ 63
  supply : ∃ supply, chain.supplyAfterSlotUpdates
    (bodyWrites height chain.allocCounter.toNat body) = some supply

/-- What applying a body leaves behind. -/
structure Applied (hasher : StateHasher) (chain after : ChainState) (body : TxBody)
    (height : U64) : Prop where
  writes : chain.state.applyDeltaUnrooted hasher
    (bodyWrites height chain.allocCounter.toNat body) = .ok after.state
  active_eq : after.activeSlotCount.toNat + body.spends.length =
    chain.activeSlotCount.toNat + body.mints.length
  alloc_eq : after.allocCounter.toNat = chain.allocCounter.toNat + body.mints.length
  supply_eq : chain.supplyAfterSlotUpdates (bodyWrites height chain.allocCounter.toNat body) =
    some after.circulatingSupplyMicronoid
  utxoRoot_eq : after.utxoRoot = chain.utxoRoot
  exactRoots_eq : after.exactRoots = chain.exactRoots

theorem toNat_ofNat_countOnes (word : U16) :
    (BitVec.ofNat 64 (countOnes word)).toNat = countOnes word := by
  have := countOnes_le word
  rw [toNat_ofNat_of_lt (by omega)]

/-- The two loops over slot sets ask for distinct slots throughout. -/
theorem distinct_iff (body : TxBody) :
    body.touched.Nodup ↔ (body.liveInputs.map (·.2.slotIndex)).Nodup ∧
      (body.liveOutputs.map (·.2.slotIndex)).Nodup ∧
      ∀ entry ∈ body.liveOutputs, entry.2.slotIndex ∉
        (body.liveInputs.map (·.2.slotIndex)).reverse ++ [] := by
  simp only [TxBody.touched, TxBody.spends, TxBody.mints, List.map_map, List.nodup_append,
    List.append_nil, List.mem_reverse, Function.comp_def]
  refine and_congr_right fun _ => and_congr_right fun _ => ⟨fun apart entry member named => ?_,
    fun apart slot spent other minted same => ?_⟩
  · exact apart _ named _ (List.mem_map_of_mem member) rfl
  · obtain ⟨entry, member, rfl⟩ := List.mem_map.mp minted
    exact apart entry member (same ▸ spent)

section

variable (rep : chain.state.Represents hasher slots)
include rep

/-- A slot in range whose segment is in memory reads from the vector. -/
theorem available_slot_eq {slot : U32} (available : chain.checkSlotAvailable slot = .ok ()) :
    chain.state.slot slot.toNat = slots slot.toNat :=
  rep.slot_eq (checkSlotAvailable_eq_ok.mp available).1 (checkSlotAvailable_eq_ok.mp available).2

theorem checkInputs_iff {done : Unit} :
    (∀ entry ∈ body.liveInputs, chain.checkInput body.inputOwner entry = .ok done) ↔
      ∀ input ∈ body.spends, chain.checkSlotAvailable input.slotIndex = .ok () ∧
        slots input.slotIndex.toNat = input.claimed body.inputOwner := by
  simp only [TxBody.spends, List.forall_mem_map, checkInput, bind_eq_ok, reject_eq_ok, not_not]
  refine forall₂_congr fun entry _ => ⟨?_, ?_⟩
  · rintro ⟨_, available, claimed⟩
    exact ⟨available, available_slot_eq rep available ▸ claimed⟩
  · rintro ⟨available, claimed⟩
    exact ⟨(), available, (available_slot_eq rep available).trans claimed⟩

theorem checkOutputs_iff :
    (∀ entry ∈ body.liveOutputs, chain.checkSlotAvailable entry.2.slotIndex = .ok () ∧
        chain.state.slot entry.2.slotIndex.toNat = .empty) ↔
      ∀ output ∈ body.mints, chain.checkSlotAvailable output.slotIndex = .ok () ∧
        slots output.slotIndex.toNat = .empty := by
  simp only [TxBody.mints, List.forall_mem_map]
  exact forall₂_congr fun entry _ => and_congr_right fun available => by
    rw [available_slot_eq rep available]

/-- The checks pass exactly on the applicable bodies. -/
theorem checkTx_eq_ok {effect : TxEffect} :
    chain.checkTx body (some height) = .ok effect ↔
      Applicable chain slots body height ∧
        effect.deltas = bodyWrites height chain.allocCounter.toNat body ∧
        effect.activeSlotCount.toNat + body.spends.length =
          chain.activeSlotCount.toNat + body.mints.length ∧
        effect.allocCounter.toNat = chain.allocCounter.toNat + body.mints.length ∧
        chain.supplyAfterSlotUpdates (bodyWrites height chain.allocCounter.toNat body) =
          some effect.circulatingSupplyMicronoid := by
  have inputCount : (BitVec.ofNat 64 body.liveInputCount).toNat = body.spends.length :=
    (toNat_ofNat_countOnes _).trans (length_spends body).symm
  have outputCount : (BitVec.ofNat 64 body.liveOutputCount).toNat = body.mints.length :=
    (toNat_ofNat_countOnes _).trans (length_mints body).symm
  have outputLength : body.liveOutputs.length = body.mints.length := by simp [TxBody.mints]
  have spent : body.liveInputs.map (fun entry => (entry.2.slotIndex.toNat, SlotValue.empty)) =
      spendWrites body.spends := by simp [spendWrites, TxBody.spends, Function.comp_def]
  simp only [checkTx, bind_eq_ok, reject_eq_ok, okOr_eq_ok, pure_eq_ok, checkedAdd_eq_some,
    checkedSub_eq_some, forM_eq_ok, foldlM_insertFresh, foldlM_checkOutputSlot, foldlM_mintOutput,
    isCoinbaseCreationId_iff, inputCount, outputCount, outputLength, spent, checkInputs_iff rep,
    checkOutputs_iff rep]
  constructor
  · rintro ⟨_, -, _, ⟨freshInputs, -, rfl⟩, _, ⟨⟨freshOutputs, -, -⟩, apart⟩, _, inputs, spent, less,
      active, more, alloc, moved, _, low, cursor, ⟨outputs, -, deltas⟩, supply, counted, rfl⟩
    rw [deltas] at counted
    refine ⟨⟨(distinct_iff body).mpr ⟨freshInputs, freshOutputs, apart⟩, ?_,
      fun input member => (inputs input member).2, fun output member => (outputs output member).2,
      by omega, ?_, by omega, supply, counted⟩, deltas, ?_, moved.symm, counted⟩
    · simp only [TxBody.touched, List.forall_mem_append, List.forall_mem_map]
      exact ⟨fun input member => checkSlotAvailable_eq_ok.mp (inputs input member).1,
        fun output member => checkSlotAvailable_eq_ok.mp (outputs output member).1⟩
    · have := active.isLt
      omega
    · show active.toNat + _ = _
      omega
  · rintro ⟨fits, deltas, active, alloc, counted⟩
    obtain ⟨freshInputs, freshOutputs, apart⟩ := (distinct_iff body).mp fits.distinct
    have available := fits.available
    simp only [TxBody.touched, List.forall_mem_append, List.forall_mem_map] at available
    have small := chain.activeSlotCount.isLt
    have ge := fits.active_ge
    have spentActive : (BitVec.ofNat 64 (chain.activeSlotCount.toNat - body.spends.length)).toNat =
        chain.activeSlotCount.toNat - body.spends.length := by
      rw [toNat_ofNat_of_lt (by omega)]
    refine ⟨(), by simp, _, ⟨freshInputs, by simp, rfl⟩, _, ⟨⟨freshOutputs, by simp, rfl⟩, apart⟩,
      (), fun input member => ⟨checkSlotAvailable_eq_ok.mpr (available.1 input member),
        fits.claimed input member⟩,
      BitVec.ofNat 64 (chain.activeSlotCount.toNat - body.spends.length), by omega,
      effect.activeSlotCount, by omega, effect.allocCounter, alloc.symm, (), ?_,
      (effect.allocCounter, _), ⟨fun output member =>
        ⟨checkSlotAvailable_eq_ok.mpr (available.2 output member), fits.free output member⟩,
        alloc.symm, rfl⟩, _, counted, ?_⟩
    · have := fits.alloc_lt
      omega
    · show TxEffect.mk (bodyWrites height chain.allocCounter.toNat body) _ _ _ = effect
      rw [← deltas]

theorem applyTx_ok (ok : chain.applyTxCheckedDeferredRoot hasher body (some height) = .ok after) :
    Applicable chain slots body height ∧ Applied hasher chain after body height := by
  simp only [applyTxCheckedDeferredRoot, bind_eq_ok, mapError_ok_iff, pure_eq_ok] at ok
  obtain ⟨effect, checked, state, written, rfl⟩ := ok
  obtain ⟨fits, deltas, active, alloc, supply⟩ := (checkTx_eq_ok rep).mp checked
  exact ⟨fits, deltas ▸ written, active, alloc, supply, rfl, rfl⟩

/-- Every applicable body is applied: the writes cannot fail after the checks. -/
theorem Applicable.applied (fits : Applicable chain slots body height) :
    ∃ after, chain.applyTxCheckedDeferredRoot hasher body (some height) = .ok after := by
  obtain ⟨supply, counted⟩ := fits.supply
  have small := chain.activeSlotCount.isLt
  have ge := fits.active_ge
  have active := fits.active_lt
  have alloc := fits.alloc_lt
  let effect : TxEffect :=
    { deltas := bodyWrites height chain.allocCounter.toNat body
      activeSlotCount := BitVec.ofNat 64
        (chain.activeSlotCount.toNat - body.spends.length + body.mints.length)
      allocCounter := BitVec.ofNat 64 (chain.allocCounter.toNat + body.mints.length)
      circulatingSupplyMicronoid := supply }
  have checked : chain.checkTx body (some height) = .ok effect := by
    refine (checkTx_eq_ok rep).mpr ⟨fits, rfl, ?_, ?_, counted⟩
    · rw [toNat_ofNat_of_lt active]
      omega
    · rw [toNat_ofNat_of_lt (by omega)]
  have inside := forall_bodyWrites (· < 2 ^ chain.state.logSlots)
    (fun slot touched => (fits.available slot touched).1) height chain.allocCounter.toNat
  have written : chain.state.applyDeltaUnrooted hasher effect.deltas = .ok _ :=
    SegmentedFriState.applyDeltaUnrooted_eq_ok.mpr ⟨inside, rfl⟩
  exact ⟨_, by
    simp only [applyTxCheckedDeferredRoot, bind_eq_ok, mapError_ok_iff, pure_eq_ok]
    exact ⟨effect, checked, _, written, rfl⟩⟩

end

end ChainState

end ParanoidChain
