import ParanoidChain.Lib.OrderStatistic
import ParanoidChain.Mempool.FeeFloor
import Mathlib.Data.List.DropRight

/-!
# The fee floor as a function of its history

What a call does to the floor is judged by the calls before it: the fees it still counts were recorded
after the last reset, and the latch is on because of a call at the high-water mark that no later call
took back. The marks are stated over the natural numbers, so no widened product overflows.
-/

namespace ParanoidChain.FeeFloor

open Lib

/-! ## Histories -/

namespace Call

/-- An empty pool, or one below half of both limits. -/
def LowWater (count maxCount bytes maxBytes : U64) : Prop :=
  count = 0 ∨ 2 * count.toNat < maxCount.toNat ∧ 2 * bytes.toNat < maxBytes.toNat

/-- At four fifths of a limit, or above. -/
def HighWater (count maxCount bytes maxBytes : U64) : Prop :=
  4 * maxCount.toNat ≤ 5 * count.toNat ∨ 4 * maxBytes.toNat ≤ 5 * bytes.toNat

instance (count maxCount bytes maxBytes : U64) : Decidable (LowWater count maxCount bytes maxBytes) :=
  inferInstanceAs (Decidable (_ ∨ _ ∧ _))

instance (count maxCount bytes maxBytes : U64) : Decidable (HighWater count maxCount bytes maxBytes) :=
  inferInstanceAs (Decidable (_ ∨ _))

/-- The fee of a recording call. -/
def fee? : Call → Option U64
  | .record fee => some fee
  | _ => none

/-- Whether a pressure call has the new policy active. -/
def activation? : Call → Option Bool
  | .updatePressure v11Active .. => some v11Active
  | _ => none

/-- The calls that forget all fees. The legacy policy resets on an empty pool only. -/
def isReset : Call → Bool
  | .record _ => false
  | .reset => true
  | .updatePressure v11Active count maxCount bytes maxBytes =>
    if v11Active then decide (LowWater count maxCount bytes maxBytes) else decide (count = 0)

/-- The calls after which the latch is off: resets, and calls under the legacy policy. -/
def unlatches : Call → Bool
  | .record _ => false
  | .reset => true
  | .updatePressure v11Active count maxCount bytes maxBytes =>
    !v11Active || decide (LowWater count maxCount bytes maxBytes)

/-- The pressure calls at the high-water mark, under the new policy. -/
def isHigh : Call → Bool
  | .updatePressure v11Active count maxCount bytes maxBytes =>
    v11Active && decide (HighWater count maxCount bytes maxBytes)
  | _ => false

end Call

/-- The fees recorded since the last reset. -/
def feesSinceReset (calls : List Call) : List U64 :=
  (calls.rtakeWhile fun call => !call.isReset).filterMap Call.fee?

/-- The calls since the latch was last taken off. -/
def sinceUnlatched (calls : List Call) : List Call := calls.rtakeWhile fun call => !call.unlatches

/-- The largest fee recorded since the last reset, zero when there is none. -/
def largestFee (calls : List Call) : Nat := ((feesSinceReset calls).map BitVec.toNat).foldr max 0

/-- A reset forgets the fees so far; a recorded fee joins them. -/
theorem feesSinceReset_concat (calls : List Call) (call : Call) :
    feesSinceReset (calls ++ [call]) =
      if call.isReset then [] else feesSinceReset calls ++ call.fee?.toList := by
  rw [feesSinceReset, List.rtakeWhile_concat]
  cases call.isReset
  · cases fee : call.fee? <;> simp [feesSinceReset, fee]
  · rfl

/-- A call that unlatches the pressure forgets the calls so far. -/
theorem mem_sinceUnlatched_concat {calls : List Call} {call other : Call} :
    other ∈ sinceUnlatched (calls ++ [call]) ↔
      call.unlatches = false ∧ (other ∈ sinceUnlatched calls ∨ other = call) := by
  rw [sinceUnlatched, List.rtakeWhile_concat]
  cases call.unlatches <;> simp [sinceUnlatched]

/-- Every fee since the reset is at most the largest. -/
theorem le_largestFee {calls : List Call} {fee : U64} (member : fee ∈ feesSinceReset calls) :
    fee.toNat ≤ largestFee calls := by
  rw [largestFee]
  generalize feesSinceReset calls = fees at member
  induction fees with
  | nil => simp at member
  | cons first fees ih =>
    rw [List.map_cons, List.foldr_cons]
    rcases List.mem_cons.mp member with rfl | later
    · exact le_max_left _ _
    · exact (ih later).trans (le_max_right _ _)

/-! ## One call -/

/-- The products of the watermark comparison do not overflow 128 bits. -/
theorem toNat_widened (word : U64) {factor : Nat} (small : factor ≤ 5) :
    (widened word factor).toNat = factor * word.toNat := by
  have product : word.toNat * factor ≤ word.toNat * 5 := Nat.mul_le_mul_left _ small
  rw [widened, BitVec.toNat_mul, BitVec.toNat_setWidth, BitVec.toNat_ofNat,
    Nat.mod_eq_of_lt (by omega : word.toNat < 2 ^ 128),
    Nat.mod_eq_of_lt (by omega : factor < 2 ^ 128), Nat.mod_eq_of_lt (by omega), Nat.mul_comm]

/-- The update of the pressure as a case split on the two watermarks. -/
theorem updatePressure_eq (floor : FeeFloor) (v11Active : Bool)
    (count maxCount bytes maxBytes : U64) :
    floor.updatePressure v11Active count maxCount bytes maxBytes =
      if v11Active then
        if Call.LowWater count maxCount bytes maxBytes then
          { floor with pressureActive := some false }.reset
        else if Call.HighWater count maxCount bytes maxBytes then
          { floor with pressureActive := some true }
        else { floor with pressureActive := some (floor.pressureActive.getD false) }
      else if count = 0 then { floor with pressureActive := none }.reset
      else { floor with pressureActive := none } := by
  have wide (word : U64) : (word.setWidth 128).toNat = word.toNat := by
    rw [BitVec.toNat_setWidth, Nat.mod_eq_of_lt (by omega)]
  simp only [updatePressure, BitVec.lt_def, BitVec.le_def, toNat_widened _ (by decide : 2 ≤ 5),
    toNat_widened _ (by decide : 4 ≤ 5), toNat_widened _ le_rfl, wide, Call.LowWater, Call.HighWater]
  rfl

/-- What the floor keeps of its history. -/
structure Tracks (calls : List Call) (floor : FeeFloor) : Prop where
  recent : ∀ fee ∈ floor.recent, fee ∈ feesSinceReset calls
  current : floor.current = compute floor.recent
  active : (calls.filterMap Call.activation?).getLast? = some true → floor.pressureActive ≠ none
  latched : floor.pressureActive = some true →
    ∃ call ∈ sinceUnlatched calls, call.isHigh = true

theorem compute_nil : compute [] = minFeeBase := rfl

theorem Tracks.new (windowSize : Nat) : Tracks [] (new windowSize) where
  recent := by simp [FeeFloor.new]
  current := rfl
  active := by simp
  latched := by simp [FeeFloor.new]

section Step

variable {calls : List Call} {floor : FeeFloor}

theorem Tracks.record (tracks : Tracks calls floor) (fee : U64) :
    Tracks (calls ++ [.record fee]) (floor.record fee) where
  recent other member := by
    rw [feesSinceReset_concat]
    simp only [FeeFloor.record, List.mem_append, List.mem_singleton] at member
    rcases member with kept | rfl
    · have known : other ∈ floor.recent := by
        split at kept
        · exact List.mem_of_mem_drop kept
        · exact kept
      simp [Call.isReset, tracks.recent other known]
    · simp [Call.isReset, Call.fee?]
  current := rfl
  active last := tracks.active (by simpa [Call.activation?] using last)
  latched on := by
    obtain ⟨call, member, high⟩ := tracks.latched on
    exact ⟨call, mem_sinceUnlatched_concat.mpr ⟨rfl, .inl member⟩, high⟩

/-- A call that forgets the fees, whatever it does to the latch. -/
theorem Tracks.forget (capacity : Nat) (latch : Option Bool) (call : Call)
    (off : latch ≠ some true) (active : call.activation? = some true → latch ≠ none)
    (silent : call.activation? = none →
      ((calls.filterMap Call.activation?).getLast? = some true → latch ≠ none)) :
    Tracks (calls ++ [call]) ⟨[], capacity, minFeeBase, latch⟩ where
  recent := by simp
  current := compute_nil.symm
  active last := by
    cases kind : call.activation? with
    | none => exact silent kind (by simpa [kind] using last)
    | some flag =>
      obtain rfl : flag = true := by simpa [kind] using last
      exact active kind
  latched on := absurd on off

theorem Tracks.updatePressure (tracks : Tracks calls floor) (v11Active : Bool)
    (count maxCount bytes maxBytes : U64) :
    Tracks (calls ++ [.updatePressure v11Active count maxCount bytes maxBytes])
      (floor.updatePressure v11Active count maxCount bytes maxBytes) := by
  rw [updatePressure_eq]
  cases v11Active
  · -- The legacy policy drops the latch and keeps the fees unless the pool is empty.
    by_cases empty : count = 0
    · rw [if_neg (by simp), if_pos empty]
      exact .forget _ _ _ (by simp) (by simp [Call.activation?]) (by simp [Call.activation?])
    · rw [if_neg (by simp), if_neg empty]
      refine ⟨fun fee member => ?_, tracks.current, by simp [Call.activation?], by simp⟩
      have spares : (Call.updatePressure false count maxCount bytes maxBytes).isReset = false :=
        decide_eq_false empty
      simp [feesSinceReset_concat, spares, tracks.recent fee member]
  · by_cases low : Call.LowWater count maxCount bytes maxBytes
    · rw [if_pos rfl, if_pos low]
      exact .forget _ _ _ (by simp) (by simp) (by simp [Call.activation?])
    · have kept (fee : U64) (member : fee ∈ floor.recent) : fee ∈ feesSinceReset
          (calls ++ [.updatePressure true count maxCount bytes maxBytes]) := by
        simp [feesSinceReset_concat, Call.isReset, low, tracks.recent fee member]
      have latching : (Call.updatePressure true count maxCount bytes maxBytes).unlatches = false :=
        decide_eq_false low
      rw [if_pos rfl, if_neg low]
      by_cases high : Call.HighWater count maxCount bytes maxBytes
      · rw [if_pos high]
        refine ⟨kept, tracks.current, by simp, fun _ => ?_⟩
        exact ⟨_, mem_sinceUnlatched_concat.mpr ⟨latching, .inr rfl⟩, decide_eq_true high⟩
      · rw [if_neg high]
        refine ⟨kept, tracks.current, by simp, fun on => ?_⟩
        have before : floor.pressureActive = some true := by
          cases held : floor.pressureActive <;> simp_all
        obtain ⟨call, member, reached⟩ := tracks.latched before
        exact ⟨call, mem_sinceUnlatched_concat.mpr ⟨latching, .inl member⟩, reached⟩

theorem Tracks.call (tracks : Tracks calls floor) (call : Call) :
    Tracks (calls ++ [call]) (floor.call call) := by
  cases call with
  | record fee => exact tracks.record fee
  | reset =>
    refine .forget _ _ _ ?_ (by simp [Call.activation?]) fun _ last => ?_
    · cases floor.pressureActive <;> simp
    · simpa using tracks.active last
  | updatePressure v11Active count maxCount bytes maxBytes =>
    exact tracks.updatePressure v11Active count maxCount bytes maxBytes

end Step

/-- So the floor after any history tracks it. -/
theorem after_tracks (windowSize : Nat) (calls : List Call) : Tracks calls (after windowSize calls) := by
  induction calls using List.reverseRecOn with
  | nil => exact .new windowSize
  | append_singleton calls call ih =>
    rw [after, List.foldl_append, List.foldl_cons, List.foldl_nil]
    exact ih.call call

/-! ## The floor in force -/

/-- Fees up to a bound give a floor of at most nine tenths of it, unless the base fee is higher. -/
theorem compute_le {recent : List U64} {most : Nat} (bounded : ∀ fee ∈ recent, fee.toNat ≤ most) :
    compute recent ≤ max minFeeBase (9 * most / 10) := by
  rw [compute]
  split
  case isTrue => exact le_max_left _ _
  case isFalse some =>
    have size : recent.length / 2 < (recent.map BitVec.toNat).length := by
      rw [List.length_map]
      exact Nat.div_lt_self (List.length_pos_iff.mpr (by simpa using some)) (by decide)
    obtain ⟨fee, member, same⟩ := List.mem_map.mp (getD_insertionSort_mem size 0)
    have median : medianU64 recent ≤ most := same.symm.trans_le (bounded fee member)
    have scaled : saturatingMul 64 (medianU64 recent) 9 ≤ 9 * most :=
      (Nat.min_le_left _ _).trans (by omega)
    exact max_le ((Nat.div_le_div_right scaled).trans (le_max_right _ _)) (le_max_left _ _)

/-- The floor never goes below the base fee. -/
theorem minFeeBase_le_compute (recent : List U64) : minFeeBase ≤ compute recent := by
  rw [compute]
  split
  · exact le_rfl
  · exact le_max_right _ _

/-- After every history the floor is between the base and nine tenths of the largest fee since the
last reset. While the new policy is active it is above the base only after a call at the high-water
mark that nothing has taken back. No product of the marks overflows. -/
theorem fee_floor_latch (windowSize : Nat) (calls : List Call) :
    minFeeBase ≤ (after windowSize calls).floorNow ∧
    (after windowSize calls).floorNow ≤ max minFeeBase (9 * largestFee calls / 10) ∧
    ((calls.filterMap Call.activation?).getLast? = some true →
      minFeeBase < (after windowSize calls).floorNow →
      ∃ call ∈ sinceUnlatched calls, call.isHigh = true) ∧
    ∀ (word : U64) (factor : Nat), factor ≤ 5 → (widened word factor).toNat = factor * word.toNat := by
  have tracks := after_tracks windowSize calls
  refine ⟨?_, ?_, fun active above => ?_, fun word factor small => toNat_widened word small⟩
  · rw [floorNow, tracks.current]
    split
    · exact le_rfl
    · exact minFeeBase_le_compute _
  · rw [floorNow, tracks.current]
    split
    · exact le_max_left _ _
    · exact compute_le fun fee member => le_largestFee (tracks.recent fee member)
  · apply tracks.latched
    have on : (after windowSize calls).pressureActive ≠ some false := by
      intro off
      rw [floorNow, if_pos off] at above
      exact lt_irrefl _ above
    cases held : (after windowSize calls).pressureActive with
    | none => exact absurd held (tracks.active active)
    | some latch => cases latch <;> simp_all

example : (after 50 [.updatePressure true 8 10 0 100, .record 100000]).floorNow = 90000 ∧
    (after 50 [.record 100000, .updatePressure true 7 10 0 100]).floorNow = minFeeBase := by decide

end ParanoidChain.FeeFloor
