import ParanoidChain.Laws.Chain.Block

/-!
# Sums over the slots of a block

In a block every slot is touched once, so the bodies may all be read against the vector before the
block, and a weight added up over the slots changes by the weights of what is minted minus those of
what is claimed. The two weights of interest are the amount of a slot and its being occupied.
-/

namespace ParanoidChain

open Lib

/-- The slot values the inputs of a body claim. -/
def TxBody.claims (body : TxBody) : List SlotValue :=
  body.spends.map (·.claimed body.inputOwner)

variable {slots : Nat → SlotValue} {height : U64} {alloc size : Nat} {bodies : List TxBody}

/-! ## Reading the bodies against the first vector -/

/-- A body asks nothing of slots that it does not touch. -/
theorem TxBody.Accepts.congr {body : TxBody} {others : Nat → SlotValue}
    (same : ∀ slot ∈ body.touched, slots slot.toNat = others slot.toNat) :
    body.Accepts slots ↔ body.Accepts others := by
  have spent (input : TxInput) (member : input ∈ body.spends) := same input.slotIndex
    (List.mem_append_left _ (List.mem_map_of_mem member))
  have minted (output : TxOutput) (member : output ∈ body.mints) := same output.slotIndex
    (List.mem_append_right _ (List.mem_map_of_mem member))
  constructor
  · rintro ⟨distinct, claimed, free⟩
    exact ⟨distinct, fun input member => spent input member ▸ claimed input member,
      fun output member => minted output member ▸ free output member⟩
  · rintro ⟨distinct, claimed, free⟩
    exact ⟨distinct, fun input member => (spent input member).trans (claimed input member),
      fun output member => (minted output member).trans (free output member)⟩

/-- When no slot is touched twice, every body may be read against the vector before the first. -/
theorem accepted_iff (distinct : (touchedSlots bodies).Nodup) :
    Accepted height slots alloc bodies ↔ ∀ body ∈ bodies, body.Accepts slots := by
  induction bodies generalizing slots alloc with
  | nil => simp [Accepted]
  | cons body rest ih =>
    simp only [touchedSlots, List.flatMap_cons] at distinct
    obtain ⟨-, others, apart⟩ := List.nodup_append.mp distinct
    simp only [Accepted, ih others, List.forall_mem_cons]
    refine and_congr_right fun _ => forall₂_congr fun later member => ?_
    refine TxBody.Accepts.congr fun slot touched => overlay_of_not_mem fun written => ?_
    rw [keys_bodyWrites] at written
    obtain ⟨earlier, touchedEarlier, same⟩ := List.mem_map.mp written
    exact apart earlier touchedEarlier slot (List.mem_flatMap.mpr ⟨later, member, touched⟩)
      (BitVec.eq_of_toNat_eq same)

/-! ## Weights -/

section Weights

variable {weight : SlotValue → Nat} {price : TxOutput → Nat}

/-- What a block overwrites are the claims of its inputs: its outputs overwrite nothing. -/
theorem sum_overwritten (empty : weight .empty = 0) (fits : ∀ body ∈ bodies, body.Accepts slots) :
    ((blockWrites height alloc bodies).map fun write => weight (slots write.1)).sum =
      ((bodies.flatMap TxBody.claims).map weight).sum := by
  induction bodies generalizing alloc with
  | nil => rfl
  | cons body rest ih =>
    obtain ⟨here, others⟩ := List.forall_mem_cons.mp fits
    have spent : (spendWrites body.spends).map (fun write => weight (slots write.1)) =
        body.claims.map weight := by
      simp only [spendWrites, TxBody.claims, List.map_map]
      exact List.map_congr_left fun input member => congrArg weight (here.claimed input member)
    have free : ∀ (outputs : List TxOutput) (alloc : Nat), (∀ output ∈ outputs, output ∈ body.mints) →
        ((mintWrites body height alloc outputs).map fun write => weight (slots write.1)).sum = 0 := by
      intro outputs
      induction outputs with
      | nil => simp [mintWrites]
      | cons output outputs more =>
        intro alloc sub
        obtain ⟨first, rest⟩ := List.forall_mem_cons.mp sub
        simp [mintWrites, more _ rest, here.free output first, empty]
    simp only [blockWrites, bodyWrites, List.map_append, List.sum_append, ih others,
      List.flatMap_cons, spent, free _ _ fun _ member => member, Nat.add_zero]

/-- The creation ids of a run below the tag are not zero. -/
theorem creationIdAt_ne_zero (body : TxBody) (height : U64) {count : Nat} (some : 0 < count)
    (low : count < 2 ^ 63) : creationIdAt body height count ≠ 0 := by
  intro zero
  have zero := congrArg BitVec.toNat zero
  unfold creationIdAt at zero
  split at zero
  · have tagged : 2 ^ 63 ≤ (coinbaseCreationId height).toNat := by
      rw [coinbaseCreationId, BitVec.toNat_or]
      exact Nat.left_le_or
    rw [zero] at tagged
    simp at tagged
  · rw [toNat_ofNat_of_lt (by omega)] at zero
    simp at zero
    omega

/-- What a block writes are its outputs: its inputs leave empty slots. -/
theorem sum_written (empty : weight .empty = 0)
    (minted : ∀ output creationId, creationId ≠ 0 → weight (output.minted creationId) = price output)
    (low : alloc + mintCount bodies < 2 ^ 63) :
    ((blockWrites height alloc bodies).map fun write => weight write.2).sum =
      ((bodies.flatMap TxBody.mints).map price).sum := by
  induction bodies generalizing alloc with
  | nil => rfl
  | cons body rest ih =>
    simp only [mintCount, List.map_cons, List.sum_cons] at low ih
    have spent : ((spendWrites body.spends).map fun write => weight write.2).sum = 0 := by
      simp [spendWrites, empty, Function.comp_def]
    have paid : ∀ (outputs : List TxOutput) (alloc : Nat), alloc + outputs.length < 2 ^ 63 →
        ((mintWrites body height alloc outputs).map fun write => weight write.2).sum =
          (outputs.map price).sum := by
      intro outputs
      induction outputs with
      | nil => simp [mintWrites]
      | cons output outputs more =>
        intro alloc low
        simp only [List.length_cons] at low
        simp only [mintWrites, List.map_cons, List.sum_cons, more (alloc + 1) (by omega),
          minted output _ (creationIdAt_ne_zero body height (by omega : 0 < alloc + 1) (by omega))]
    have later : ((blockWrites height (alloc + body.mints.length) rest).map fun write =>
        weight write.2).sum = ((rest.flatMap TxBody.mints).map price).sum := ih (by omega)
    simp only [blockWrites, bodyWrites, List.map_append, List.sum_append, spent, Nat.zero_add,
      paid _ _ (by omega : alloc + body.mints.length < 2 ^ 63), later, List.flatMap_cons]

/-- A weight over the slots changes by what a block mints and what it claims. -/
theorem total_blockWrites (empty : weight .empty = 0)
    (minted : ∀ output creationId, creationId ≠ 0 → weight (output.minted creationId) = price output)
    (distinct : (touchedSlots bodies).Nodup) (accepted : Accepted height slots alloc bodies)
    (inside : ∀ slot ∈ touchedSlots bodies, slot.toNat < size)
    (low : alloc + mintCount bodies < 2 ^ 63) :
    total weight (overlay slots (blockWrites height alloc bodies)) size +
        ((bodies.flatMap TxBody.claims).map weight).sum =
      total weight slots size + ((bodies.flatMap TxBody.mints).map price).sum := by
  have keys : ((blockWrites height alloc bodies).map Prod.fst).Nodup := by
    rw [keys_blockWrites]
    exact distinct.map fun _ _ same => BitVec.eq_of_toNat_eq same
  have moved := total_overlay weight slots keys fun write member => by
    have named := List.mem_map_of_mem (f := Prod.fst) member
    rw [keys_blockWrites] at named
    obtain ⟨slot, touched, same⟩ := List.mem_map.mp named
    exact same ▸ inside slot touched
  rw [sum_overwritten empty ((accepted_iff distinct).mp accepted), sum_written empty minted low]
    at moved
  exact moved

end Weights

end ParanoidChain
