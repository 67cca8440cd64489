import ParanoidChain.Laws.Chain.State

/-!
# The circulating supply

`supply_after_slot_updates` walks a batch of slot updates in ascending slot order, takes away the
amount each update replaces and adds the one it writes. What it returns differs from the old supply
by the change of the total amount of the vector, and it returns something whenever the supply was
that total.
-/

namespace ParanoidChain

open Lib

/-- The amount of a slot, as a number. -/
def amountOf (slot : SlotValue) : Nat := slot.amount.toNat

@[simp] theorem amountOf_empty : amountOf .empty = 0 := by simp [amountOf]

/-- A vector of at most `2^64` slots holds less than the supply word can count. -/
theorem total_amountOf_lt (slots : Nat → SlotValue) {size : Nat} (small : size ≤ 2 ^ 64) :
    total amountOf slots size < 2 ^ 128 := by
  have each : ∀ index ∈ Finset.range size, amountOf (slots index) ≤ 2 ^ 64 - 1 := fun index _ =>
    Nat.le_sub_one_of_lt (slots index).amount.isLt
  have bound := Finset.sum_le_card_nsmul _ _ _ each
  rw [Finset.card_range] at bound
  calc total amountOf slots size ≤ size * (2 ^ 64 - 1) := bound
    _ ≤ 2 ^ 64 * (2 ^ 64 - 1) := Nat.mul_le_mul_right _ small
    _ < 2 ^ 128 := by norm_num

namespace ChainState

variable {hasher : StateHasher} {chain : ChainState} {slots : Nat → SlotValue}

/-- The value an update replaces is read from the vector, unless its segment is evicted. -/
theorem previousSlot_eq_some (rep : chain.state.Represents hasher slots) {index : Nat}
    {previous : SlotValue} :
    chain.previousSlot index = some previous ↔
      chain.state.segIdOf index ∉ chain.state.evicted ∧ previous = slots index := by
  unfold previousSlot
  split
  case isTrue inside =>
    simp only [SegmentedFriState.isEvicted, decide_eq_true_eq]
    split
    case isTrue gone => simp [gone]
    case isFalse present =>
      rw [rep.slot_eq inside present]
      simp [present, eq_comm]
  case isFalse outside =>
    have beyond : 2 ^ chain.state.logSlots ≤ index := Nat.le_of_not_lt outside
    have present : chain.state.segIdOf index ∉ chain.state.evicted := fun gone => by
      have low := rep.evicted_lt _ gone
      have := (Nat.div_lt_iff_lt_mul (Nat.two_pow_pos _)).mp low
      rw [rep.size_eq] at this
      omega
    simp [present, rep.beyond index beyond, eq_comm]

/-- One round of the loop, on numbers. -/
theorem supplyStep_eq_some (rep : chain.state.Represents hasher slots) {supply next : U128}
    {update : Nat × SlotValue} :
    chain.supplyStep supply update = some next ↔
      chain.state.segIdOf update.1 ∉ chain.state.evicted ∧
        amountOf (slots update.1) ≤ supply.toNat ∧
        next.toNat + amountOf (slots update.1) = supply.toNat + amountOf update.2 := by
  have wide (slot : SlotValue) : (slot.amount.setWidth 128).toNat = amountOf slot := by
    rw [BitVec.toNat_setWidth_of_le (by omega)]
    rfl
  simp only [supplyStep, bind_eq_some, previousSlot_eq_some rep,
    checkedSub_eq_some, checkedAdd_eq_some, wide]
  constructor
  · rintro ⟨previous, ⟨present, rfl⟩, reduced, less, sum⟩
    exact ⟨present, by omega, by omega⟩
  · rintro ⟨present, covered, sum⟩
    refine ⟨_, ⟨present, rfl⟩, BitVec.ofNat 128 (supply.toNat - amountOf (slots update.1)), ?_, ?_⟩
    all_goals
      have := supply.isLt
      rw [toNat_ofNat_of_lt (by omega)]
      omega

section Loop

variable {updates : List (Nat × SlotValue)} {supply final : U128} {size : Nat}

section

variable (rep : chain.state.Represents hasher slots)
include rep

/-- The loop changes the supply by the change of the total. The vector `base` is the one the earlier
rounds have left: it still agrees with the store on the slots to come. -/
theorem foldlM_supplyStep (base : Nat → SlotValue) (asc : SortedMap.Ascending updates)
    (inside : ∀ update ∈ updates, update.1 < size)
    (agree : ∀ update ∈ updates, base update.1 = slots update.1)
    (ran : updates.foldlM chain.supplyStep supply = some final) :
    (∀ update ∈ updates, chain.state.segIdOf update.1 ∉ chain.state.evicted) ∧
      final.toNat + total amountOf base size =
        supply.toNat + total amountOf (overlay base updates) size := by
  induction updates generalizing supply base with
  | nil =>
    obtain rfl : supply = final := by simpa using ran
    simp
  | cons update rest ih =>
    simp only [List.foldlM_cons, bind_eq_some] at ran
    obtain ⟨next, step, ran⟩ := ran
    obtain ⟨present, -, sum⟩ := (supplyStep_eq_some rep).mp step
    obtain ⟨residents, later⟩ := ih (Function.update base update.1 update.2)
      (List.pairwise_cons.mp asc).2 (fun other member => inside other (List.mem_cons_of_mem _ member))
      (fun other member => (asc.update_of_mem member base).trans
        (agree other (List.mem_cons_of_mem _ member))) ran
    have here := total_update amountOf base (inside update List.mem_cons_self) update.2
    rw [agree update List.mem_cons_self] at here
    refine ⟨List.forall_mem_cons.mpr ⟨present, residents⟩, ?_⟩
    rw [overlay_cons]
    omega

/-- The loop cannot fail on resident slots when the supply is the total of the vector. -/
theorem foldlM_supplyStep_isSome (base : Nat → SlotValue) (asc : SortedMap.Ascending updates)
    (small : size ≤ 2 ^ 64) (inside : ∀ update ∈ updates, update.1 < size)
    (agree : ∀ update ∈ updates, base update.1 = slots update.1)
    (present : ∀ update ∈ updates, chain.state.segIdOf update.1 ∉ chain.state.evicted)
    (counted : supply.toNat = total amountOf base size) :
    ∃ final, updates.foldlM chain.supplyStep supply = some final := by
  induction updates generalizing supply base with
  | nil => exact ⟨supply, rfl⟩
  | cons update rest ih =>
    have here := inside update List.mem_cons_self
    have moved := total_update amountOf base here update.2
    have covered : amountOf (base update.1) ≤ total amountOf base size := weight_le_total here
    rw [agree update List.mem_cons_self] at moved covered
    have fits := total_amountOf_lt (Function.update base update.1 update.2) small
    have step : chain.supplyStep supply update =
        some (BitVec.ofNat 128 (total amountOf (Function.update base update.1 update.2) size)) := by
      refine (supplyStep_eq_some rep).mpr ⟨present update List.mem_cons_self, by omega, ?_⟩
      rw [toNat_ofNat_of_lt fits]
      omega
    simp only [List.foldlM_cons, step, Option.bind_eq_bind, Option.bind_some]
    refine ih (Function.update base update.1 update.2) (List.pairwise_cons.mp asc).2
      (fun other member => inside other (List.mem_cons_of_mem _ member))
      (fun other member => (asc.update_of_mem member base).trans
        (agree other (List.mem_cons_of_mem _ member)))
      (fun other member => present other (List.mem_cons_of_mem _ member)) ?_
    rw [toNat_ofNat_of_lt fits]

/-- The supply changes by the change of the total amount. -/
theorem supplyAfterSlotUpdates_eq (inside : ∀ update ∈ updates, update.1 < size)
    (ran : chain.supplyAfterSlotUpdates updates = some final) :
    final.toNat + total amountOf slots size =
      chain.circulatingSupplyMicronoid.toNat + total amountOf (overlay slots updates) size := by
  obtain ⟨asc, same, -⟩ := SortedMap.ofWrites_spec updates
  rw [← same]
  exact (foldlM_supplyStep rep slots asc (SortedMap.forall_ofWrites (· < size) inside)
    (fun _ _ => rfl) ran).2

/-- When the supply is the total of the vector, it stays so, and the update is not refused. -/
theorem supplyAfterSlotUpdates_isSome (small : size ≤ 2 ^ 64)
    (inside : ∀ update ∈ updates, update.1 < size)
    (present : ∀ update ∈ updates, chain.state.segIdOf update.1 ∉ chain.state.evicted)
    (counted : chain.circulatingSupplyMicronoid.toNat = total amountOf slots size) :
    ∃ final, chain.supplyAfterSlotUpdates updates = some final :=
  foldlM_supplyStep_isSome rep slots (SortedMap.ofWrites_spec updates).1 small
    (SortedMap.forall_ofWrites (· < size) inside) (fun _ _ => rfl)
    (SortedMap.forall_ofWrites (fun index => chain.state.segIdOf index ∉ chain.state.evicted) present)
    counted

end

end Loop

end ChainState

end ParanoidChain
