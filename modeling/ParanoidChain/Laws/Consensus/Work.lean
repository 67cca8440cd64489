import ParanoidChain.Consensus.Work
import Mathlib.Data.List.Perm.Basic

/-!
# Chain work is exact

The byte loops compute with numbers below `2 ^ 256`: the comparison is `<`, the division is the
quotient, the sums saturate. Work is therefore `⌈2 ^ 256 / target⌉`, capped, and a chain's work does
not depend on the order of its blocks.
-/

namespace ParanoidChain.Work

open Lib

namespace Bytes256

/-- 32 bytes hold 256 bits. -/
theorem toNat_lt (self : Bytes256) : self.toNat < 2 ^ 256 := by
  have bound := Limbs.value_lt self.bytes
  rwa [self.length_eq] at bound

/-- A number has one array of 32 bytes. -/
theorem toNat_injective {a b : Bytes256} (same : a.toNat = b.toNat) : a = b :=
  Bytes256.ext (Wire.value_inj (a.length_eq.trans b.length_eq.symm) same)

/-- The greatest word. -/
theorem toNat_ones : ones.toNat = 2 ^ 256 - 1 := by decide +kernel

/-- An array is zero when its number is. -/
theorem toNat_eq_zero_iff (self : Bytes256) : self.toNat = 0 ↔ self = zero := by
  constructor
  · intro none
    apply toNat_injective
    rw [none]
    decide +kernel
  · rintro rfl
    decide +kernel

/-- The number of the bytes in the order of the array, byte 0 the most significant. -/
def arrayRank (self : Bytes256) : Nat := Limbs.value self.bytes.reverse

/-- Different arrays have different ranks. -/
theorem arrayRank_injective : Function.Injective arrayRank := by
  intro a b same
  have lengths : a.bytes.reverse.length = b.bytes.reverse.length := by
    rw [List.length_reverse, List.length_reverse, a.length_eq, b.length_eq]
  exact Bytes256.ext (List.reverse_injective (Wire.value_inj lengths same))

/-- The order of arrays is the order of their ranks. -/
theorem arrayLt_iff (a b : Bytes256) : a.arrayLt b = true ↔ a.arrayRank < b.arrayRank :=
  Limbs.lessFromTop_iff (a.length_eq.trans b.length_eq.symm)

end Bytes256

/-- `le256_lt` is the order of numbers. -/
theorem le256Lt_iff (a b : Bytes256) : le256Lt a b = true ↔ a.toNat < b.toNat := by
  have lengths : a.bytes.reverse.length = b.bytes.reverse.length := by
    rw [List.length_reverse, List.length_reverse, a.length_eq, b.length_eq]
  have compared := Limbs.lessFromTop_iff lengths
  rwa [List.reverse_reverse, List.reverse_reverse] at compared

/-- `work_gt` asks for strictly more work. -/
theorem workGt_iff (a b : Bytes256) : workGt a b = true ↔ b.toNat < a.toNat := le256Lt_iff b a

/-- `add_work` saturates. -/
theorem toNat_addWork (a b : Bytes256) :
    (addWork a b).toNat = min (a.toNat + b.toNat) (2 ^ 256 - 1) := by
  have none : (0 : BitVec (8 + 8)).toNat ≤ 1 := by decide
  obtain ⟨carry, sum⟩ := Limbs.value_addCarry (w := 8) (by decide) none
    (a.length_eq.trans b.length_eq.symm)
  rw [a.length_eq] at sum
  change _ = a.toNat + b.toNat + 0 at sum
  have low := Limbs.value_lt (Limbs.addCarry 0 a.bytes b.bytes).1
  rw [Limbs.length_addCarry (a.length_eq.trans b.length_eq.symm), a.length_eq] at low
  unfold addWork
  dsimp only
  split
  case isTrue carried =>
    have one : (Limbs.addCarry 0 a.bytes b.bytes).2.toNat = 1 := by
      have : (Limbs.addCarry 0 a.bytes b.bytes).2.toNat ≠ 0 := fun none =>
        carried (BitVec.eq_of_toNat_eq none)
      omega
    rw [one] at sum
    rw [Bytes256.toNat_ones]
    omega
  case isFalse whole =>
    have none : (Limbs.addCarry 0 a.bytes b.bytes).2.toNat = 0 := by
      rw [not_not] at whole
      rw [whole]
      rfl
    rw [none] at sum
    change Limbs.value (Limbs.addCarry 0 a.bytes b.bytes).1 = _
    omega

/-- `add_one_saturating` stops at the greatest word. -/
theorem toNat_addOneSaturating (a : Bytes256) :
    (addOneSaturating a).toNat = min (a.toNat + 1) (2 ^ 256 - 1) := by
  have grown := Limbs.increment_eq a.bytes
  have bound := a.toNat_lt
  unfold addOneSaturating
  split
  case h_1 found =>
    rw [found, a.length_eq] at grown
    dsimp only at grown
    change a.toNat + 1 = _ at grown
    rw [Bytes256.toNat_ones]
    omega
  case h_2 next found =>
    rw [found] at grown
    dsimp only at grown
    have below := Limbs.value_lt next
    rw [grown.1, a.length_eq] at below
    change Limbs.value next = _
    have value : Limbs.value next = a.toNat + 1 := grown.2
    omega

/-- `div_u256` is the quotient. -/
theorem toNat_divU256 {numerator denominator quotient : Bytes256}
    (divided : divU256 numerator denominator = some quotient) :
    quotient.toNat = numerator.toNat / denominator.toNat := by
  unfold divU256 at divided
  split at divided
  case isTrue => cases divided
  case isFalse other =>
    obtain rfl := Option.some.inj divided
    exact (Limbs.divide_eq (by decide) (denominator.length_eq.trans numerator.length_eq.symm)
      (toNat_pos_of_not_isZero256 other)).2.1

/-- The quotient plus one, capped. -/
theorem toNat_blockWork {target : Bytes256} (nonzero : target.toNat ≠ 0) :
    (blockWork target).toNat = min ((2 ^ 256 - 1) / target.toNat + 1) (2 ^ 256 - 1) := by
  have other : ¬ isZero256 target = true := fun zero => nonzero ((isZero256_iff target).1 zero)
  rw [blockWork, dif_neg other, toNat_addOneSaturating,
    toNat_divU256 (Option.some_get (divU256_isSome other)).symm, Bytes256.toNat_ones]

/-- One more than the quotient of one less is the quotient rounded up. -/
theorem pred_div_add_one {total part : Nat} (some : 0 < total) (positive : 0 < part) :
    (total - 1) / part + 1 = (total + part - 1) / part := by
  have moved : total + part - 1 = total - 1 + part := by omega
  rw [moved, Nat.add_div_right _ positive]

/-- Work adds up in either order. -/
theorem addWork_comm (a b : Bytes256) : addWork a b = addWork b a := by
  apply Bytes256.toNat_injective
  rw [toNat_addWork, toNat_addWork, Nat.add_comm]

/-- Saturation does not depend on the grouping. -/
theorem addWork_assoc (a b c : Bytes256) : addWork (addWork a b) c = addWork a (addWork b c) := by
  apply Bytes256.toNat_injective
  simp only [toNat_addWork]
  omega

/-- Two blocks may change places. -/
theorem addWork_right_comm (a b c : Bytes256) :
    addWork (addWork a b) c = addWork (addWork a c) b := by
  rw [addWork_assoc, addWork_comm b, addWork_assoc]

/-- Reordering the blocks does not change the work. -/
theorem chainWork_perm {targets others : List Bytes256} (same : targets.Perm others)
    (start : Bytes256) : chainWork start targets = chainWork start others :=
  same.foldl_eq' (fun target _ other _ work =>
    addWork_right_comm work (blockWork target) (blockWork other)) start

/-- Every target but zero is worth some work. -/
theorem blockWork_pos {target : Bytes256} (nonzero : target ≠ .zero) :
    0 < (blockWork target).toNat := by
  rw [toNat_blockWork (mt (Bytes256.toNat_eq_zero_iff target).mp nonzero)]
  exact Nat.lt_min.mpr ⟨Nat.succ_pos _, by decide⟩

/-! ## Work of a chain -/

/-- Work is `⌈2 ^ 256 / target⌉` capped at the greatest word, falls as the target grows, and adds up
with saturation, so that the work of a chain is that of its targets in any order. -/
theorem chain_work_exact :
    (∀ target : Bytes256, target.toNat ≠ 0 → (blockWork target).toNat =
      min ((2 ^ 256 + target.toNat - 1) / target.toNat) (2 ^ 256 - 1)) ∧
    (∀ target larger : Bytes256, target.toNat ≠ 0 → target.toNat ≤ larger.toNat →
      (blockWork larger).toNat ≤ (blockWork target).toNat) ∧
    (∀ a b, (addWork a b).toNat = min (a.toNat + b.toNat) (2 ^ 256 - 1)) ∧
    (∀ a b, addWork a b = addWork b a) ∧
    (∀ a b c, addWork (addWork a b) c = addWork a (addWork b c)) ∧
    (∀ a a' b b', a.toNat ≤ a'.toNat → b.toNat ≤ b'.toNat →
      (addWork a b).toNat ≤ (addWork a' b').toNat) ∧
    ∀ start (targets others : List Bytes256), targets.Perm others →
      chainWork start targets = chainWork start others := by
  refine ⟨fun target nonzero => ?_, fun target larger nonzero grows => ?_, toNat_addWork, addWork_comm,
    addWork_assoc, fun a a' b b' first second => ?_, fun start _ _ same => chainWork_perm same start⟩
  · rw [toNat_blockWork nonzero, pred_div_add_one (by decide) (Nat.pos_of_ne_zero nonzero)]
  · rw [toNat_blockWork nonzero, toNat_blockWork (by omega)]
    have quotients := Nat.div_le_div_left (a := 2 ^ 256 - 1) grows (Nat.pos_of_ne_zero nonzero)
    omega
  · rw [toNat_addWork, toNat_addWork]
    omega

end ParanoidChain.Work
