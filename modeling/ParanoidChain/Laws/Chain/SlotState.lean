import ParanoidChain.Chain.SlotState
import ParanoidChain.Laws.Tx.Types
import ParanoidChain.Lib.Overlay
import Mathlib.Data.List.GetD

/-!
# Slot values and columns

A slot is determined by its amount, creation id and owner. Columns of one length are a vector of
slots: reading, writing, growing, cutting and counting them are stated on that vector.
-/

namespace ParanoidChain

open Lib

namespace SlotValue

@[simp] theorem isEmpty_iff {slot : SlotValue} : slot.isEmpty = true ↔ slot = .empty := by
  simp [isEmpty]

@[simp] theorem isEmpty_eq_false {slot : SlotValue} : slot.isEmpty = false ↔ slot ≠ .empty := by
  simp [isEmpty]

@[simp] theorem isEmpty_empty : empty.isEmpty = true := by simp

@[simp] theorem amount_empty : empty.amount = 0 := by decide

@[simp] theorem amount_withOwnerFields (amount creationId : U64) (owner : Block128 × Block128) :
    (withOwnerFields amount creationId owner).amount = amount := by
  simp [withOwnerFields, fromParts, SlotValue.amount]

@[simp] theorem creationId_withOwnerFields (amount creationId : U64)
    (owner : Block128 × Block128) :
    (withOwnerFields amount creationId owner).creationId = creationId := by
  simp [withOwnerFields, fromParts, SlotValue.creationId]

/-- The one way to write an empty slot through its parts. -/
theorem withOwnerFields_eq_empty {amount creationId : U64} {owner : Block128 × Block128} :
    withOwnerFields amount creationId owner = .empty ↔
      amount = 0 ∧ creationId = 0 ∧ owner = (0, 0) := by
  simp only [withOwnerFields, fromParts, empty, SlotValue.mk.injEq, Prod.ext_iff]
  rw [packAmountCreationId_eq_zero]
  tauto

end SlotValue

/-- One for a live slot, nothing for an empty one. -/
def occupied (slot : SlotValue) : Nat := if slot.isEmpty then 0 else 1

@[simp] theorem occupied_empty : occupied .empty = 0 := by simp [occupied]

theorem occupied_eq_zero {slot : SlotValue} : occupied slot = 0 ↔ slot = .empty := by
  simp [occupied]

theorem occupied_of_ne {slot : SlotValue} (live : slot ≠ .empty) : occupied slot = 1 := by
  simp [occupied, live]

/-- A vector without live slots is empty throughout. -/
theorem eq_empty_of_total {slots : Nat → SlotValue} {size : Nat}
    (none : total occupied slots size = 0) {index : Nat} (inside : index < size) :
    slots index = .empty :=
  occupied_eq_zero.mp (Nat.le_zero.mp (none ▸ weight_le_total inside))

/-- Counting the live slots of a range adds up their occupation. -/
theorem countP_live (slots : Nat → SlotValue) (size : Nat) :
    ((List.range size).countP fun index => !(slots index).isEmpty) = total occupied slots size := by
  induction size with
  | zero => rfl
  | succ size ih =>
    rw [List.range_succ, List.countP_append, ih, total, total, Finset.sum_range_succ]
    congr 1
    by_cases live : slots size = .empty <;> simp [occupied, live]

namespace SegmentColumns

/-- Every column has the given length. -/
structure Sized (size : Nat) (columns : SegmentColumns) : Prop where
  values : columns.values.length = size
  ownersHi : columns.ownersHi.length = size
  ownersLo : columns.ownersLo.length = size

variable {columns : SegmentColumns} {size : Nat}

theorem sized_newZero (size : Nat) : Sized size (newZero size) := by
  constructor <;> simp [newZero]

@[simp] theorem get_newZero (size index : Nat) : (newZero size).get index = .empty := by
  simp only [get, newZero, SlotValue.empty, List.getD_eq_getElem?_getD,
    List.getElem?_getD_replicate_default_eq]

theorem Sized.put (sized : Sized size columns) (index : Nat) (slot : SlotValue) :
    Sized size (columns.put index slot) := by
  constructor <;> simp [SegmentColumns.put, sized.values, sized.ownersHi, sized.ownersLo]

theorem Sized.get_put (sized : Sized size columns) {index : Nat} (inside : index < size)
    (slot : SlotValue) :
    (columns.put index slot).get = Function.update columns.get index slot := by
  funext other
  by_cases here : other = index
  · subst here
    simp [SegmentColumns.get, SegmentColumns.put, sized.values, sized.ownersHi, sized.ownersLo,
      inside]
  · rw [Function.update_of_ne here]
    simp [SegmentColumns.get, SegmentColumns.put, List.getElem?_set_ne (Ne.symm here)]

theorem Sized.extend (sized : Sized size columns) (extra : Nat) :
    Sized (size + extra) (columns.extend extra) := by
  constructor <;> simp [SegmentColumns.extend, sized.values, sized.ownersHi, sized.ownersLo]

theorem getD_append_zeros (lane : List Block128) (extra index : Nat) :
    (lane ++ List.replicate extra 0).getD index 0 = lane.getD index 0 := by
  rcases Nat.lt_or_ge index lane.length with inside | outside
  · rw [List.getD_append _ _ _ _ inside]
  · rw [List.getD_append_right _ _ _ _ outside, List.getD_eq_default _ _ outside,
      List.getD_eq_getElem?_getD, List.getElem?_getD_replicate_default_eq]

/-- Grown columns read as before. -/
@[simp] theorem get_extend (columns : SegmentColumns) (extra index : Nat) :
    (columns.extend extra).get index = columns.get index := by
  simp only [get, extend, getD_append_zeros]

theorem Sized.truncate (sized : Sized size columns) {keep : Nat} (fits : keep ≤ size) :
    Sized keep (columns.truncate keep) := by
  constructor <;>
    simp [SegmentColumns.truncate, sized.values, sized.ownersHi, sized.ownersLo, fits]

theorem get_truncate (columns : SegmentColumns) {keep index : Nat} (inside : index < keep) :
    (columns.truncate keep).get index = columns.get index := by
  simp [get, truncate, inside]

/-- Past their length columns read as empty. -/
theorem Sized.get_of_le (sized : Sized size columns) {index : Nat} (outside : size ≤ index) :
    columns.get index = .empty := by
  simp [SegmentColumns.get, SlotValue.empty, sized.values, sized.ownersHi, sized.ownersLo, outside]

theorem all_drop_zero {lane : List Block128} {keep : Nat} :
    (lane.drop keep).all (· == 0) = true ↔ ∀ index, keep ≤ index → lane.getD index 0 = 0 := by
  simp only [List.all_eq_true, beq_iff_eq]
  constructor
  · intro zero index low
    rcases Nat.lt_or_ge index lane.length with inside | outside
    · rw [List.getD_eq_getElem _ _ inside]
      refine zero _ (List.mem_iff_getElem.mpr ⟨index - keep, by simp; omega, ?_⟩)
      simp [List.getElem_drop, Nat.add_sub_cancel' low]
    · exact List.getD_eq_default _ _ outside
  · intro zero value member
    obtain ⟨index, inside, rfl⟩ := List.mem_iff_getElem.mp member
    simp only [List.length_drop] at inside
    rw [List.getElem_drop, ← List.getD_eq_getElem _ 0]
    exact zero (keep + index) (by omega)

theorem upperIsEmpty_iff {keep : Nat} :
    columns.upperIsEmpty keep = true ↔ ∀ index, keep ≤ index → columns.get index = .empty := by
  simp only [upperIsEmpty, Bool.and_eq_true, all_drop_zero, get, SlotValue.empty,
    SlotValue.mk.injEq]
  exact ⟨fun ⟨⟨values, hi⟩, lo⟩ index low => ⟨values index low, hi index low, lo index low⟩,
    fun all => ⟨⟨fun index low => (all index low).1, fun index low => (all index low).2.1⟩,
      fun index low => (all index low).2.2⟩⟩

/-- The live count of columns is the occupation of the vector they hold. -/
theorem Sized.countLive_eq (sized : Sized size columns) :
    columns.countLive = total occupied columns.get size := by
  obtain ⟨values, hi, lo⟩ := columns
  obtain ⟨valuesLength, hiLength, loLength⟩ := sized
  simp only at valuesLength hiLength loLength
  induction values generalizing hi lo size with
  | nil =>
    obtain rfl : size = 0 := by simpa using valuesLength.symm
    simp [countLive, total]
  | cons value values ih =>
    obtain ⟨size, rfl⟩ : ∃ rest, size = rest + 1 := ⟨values.length, by simpa using valuesLength.symm⟩
    match hi, lo, hiLength, loLength with
    | first :: hi, second :: lo, hiLength, loLength =>
      have rest := ih hi lo (by simpa using valuesLength) (by simpa using hiLength)
        (by simpa using loLength)
      simp only [countLive, List.zip_cons_cons, List.countP_cons] at rest ⊢
      rw [rest, total, total, Finset.sum_range_succ']
      congr 1
      simp only [occupied, get, List.getD_cons_zero, SlotValue.isEmpty, SlotValue.empty,
        SlotValue.mk.injEq]
      by_cases zero : value = 0 ∧ first = 0 ∧ second = 0
      · simp [zero]
      · have live : (value != 0 || first != 0 || second != 0) = true := by
          simp only [Bool.or_eq_true, bne_iff_ne, ne_eq]
          tauto
        simp only [live, if_true]
        rw [if_neg (by simpa using zero)]

end SegmentColumns

end ParanoidChain
