import Mathlib.Algebra.Field.ZMod
import Mathlib.Algebra.Polynomial.Div
import Mathlib.Tactic.LinearCombination
import ParanoidChain.Lib.Residue

/-!
# Words as polynomials over GF(2)

The polynomial of a word has its bits as coefficients. Exclusive or is the sum of polynomials, and the
product of `Residue` is the remainder of the product of the polynomials by the modulus.
-/

namespace Lib

open Polynomial

variable {w : Nat}

/-- The polynomial with the bits of a word as coefficients. -/
noncomputable def polynomialOf (word : BitVec w) : (ZMod 2)[X] :=
  ∑ i ∈ Finset.range w, if word.getLsbD i then X ^ i else 0

theorem coeff_polynomialOf (word : BitVec w) (i : Nat) :
    (polynomialOf word).coeff i = if word.getLsbD i then 1 else 0 := by
  have term : ∀ k, (if word.getLsbD k then (X : (ZMod 2)[X]) ^ k else 0).coeff i =
      if i = k then (if word.getLsbD i then 1 else 0) else 0 := by
    intro k
    by_cases same : i = k
    · subst same
      cases word.getLsbD i <;> simp
    · cases word.getLsbD k <;> simp [same, coeff_X_pow]
  rw [polynomialOf, finsetSum_coeff, Finset.sum_congr rfl (fun k _ => term k),
    Finset.sum_ite_eq]
  by_cases inside : i < w
  · simp [inside]
  · simp [inside, BitVec.getLsbD_of_ge word i (by omega)]

theorem polynomialOf_xor (x y : BitVec w) :
    polynomialOf (x ^^^ y) = polynomialOf x + polynomialOf y := by
  ext i
  rw [coeff_add, coeff_polynomialOf, coeff_polynomialOf, coeff_polynomialOf,
    BitVec.getLsbD_xor]
  cases x.getLsbD i <;> cases y.getLsbD i <;> decide

theorem polynomialOf_zero : polynomialOf 0#w = 0 := by
  ext i
  simp [coeff_polynomialOf]

theorem polynomialOf_twoPow {i : Nat} (inside : i < w) :
    polynomialOf (BitVec.twoPow w i) = X ^ i := by
  ext k
  rw [coeff_polynomialOf, BitVec.getLsbD_twoPow, coeff_X_pow]
  simp [inside, eq_comm]

theorem degree_polynomialOf_lt (word : BitVec w) : (polynomialOf word).degree < w := by
  rw [degree_lt_iff_coeff_zero]
  intro i beyond
  rw [coeff_polynomialOf, BitVec.getLsbD_of_ge word i beyond, if_neg Bool.false_ne_true]

/-! ## The residue product -/

section Residue

variable (tail : BitVec w)

/-- The modulus with the given lower coefficients. -/
noncomputable def modulus : (ZMod 2)[X] := X ^ w + polynomialOf tail

theorem modulus_monic : (modulus tail).Monic := monic_X_pow_add (degree_polynomialOf_lt tail)

theorem degree_modulus : (modulus tail).degree = w := by
  have lower : (polynomialOf tail).degree < (X ^ w : (ZMod 2)[X]).degree := by
    rw [degree_X_pow]
    exact degree_polynomialOf_lt tail
  rw [modulus, degree_add_eq_left_of_degree_lt lower, degree_X_pow]

theorem polynomialOf_mod (word : BitVec w) :
    polynomialOf word %ₘ modulus tail = polynomialOf word := by
  rw [modByMonic_eq_self_iff (modulus_monic tail), degree_modulus]
  exact degree_polynomialOf_lt word

theorem X_mul_polynomialOf (positive : 0 < w) (a : BitVec w) :
    X * polynomialOf a = polynomialOf (Residue.double tail a) +
      modulus tail * (if a.getLsbD (w - 1) then 1 else 0) := by
  have shifted : X * polynomialOf a =
      polynomialOf (a <<< 1) + (if a.getLsbD (w - 1) then X ^ w else 0) := by
    ext i
    rw [coeff_add, coeff_polynomialOf, BitVec.getLsbD_shiftLeft]
    cases i with
    | zero =>
      rw [coeff_X_mul_zero]
      cases a.getLsbD (w - 1) <;> simp [Nat.ne_of_lt positive]
    | succ i =>
      rw [coeff_X_mul, coeff_polynomialOf]
      rcases Nat.lt_trichotomy (i + 1) w with below | top | above
      · cases a.getLsbD (w - 1) <;> simp [below, coeff_X_pow, Nat.ne_of_lt below]
      · have last : w - 1 = i := by omega
        rw [last]
        cases a.getLsbD i <;> simp [top, coeff_X_pow]
      · have beyond : a.getLsbD i = false := BitVec.getLsbD_of_ge a i (by omega)
        have outside : ¬ i + 1 < w := by omega
        cases a.getLsbD (w - 1) <;> simp [beyond, outside, coeff_X_pow, Nat.ne_of_gt above]
  rw [shifted, Residue.double, polynomialOf_xor, modulus]
  cases a.getLsbD (w - 1)
  · simp [polynomialOf_zero]
  · have twice : polynomialOf tail + polynomialOf tail = 0 := by
      rw [← polynomialOf_xor, BitVec.xor_self, polynomialOf_zero]
    rw [if_pos rfl, if_pos rfl, if_pos rfl]
    linear_combination -twice

/-- So doubling repeatedly multiplies by a power of `x` modulo the modulus. -/
theorem polynomialOf_iterate_double (positive : 0 < w) (count : Nat) (a : BitVec w) :
    polynomialOf ((Residue.double tail)^[count] a) = (X ^ count * polynomialOf a) %ₘ modulus tail := by
  induction count generalizing a with
  | zero => rw [pow_zero, one_mul, polynomialOf_mod]; rfl
  | succ count ih =>
    rw [Function.iterate_succ_apply, ih]
    refine modByMonic_eq_of_dvd_sub (modulus_monic tail) ?_
    rw [pow_succ, mul_assoc, X_mul_polynomialOf tail positive]
    exact ⟨-(X ^ count * (if a.getLsbD (w - 1) then 1 else 0)), by ring⟩

/-- The product of words is the product of polynomials modulo the modulus. -/
theorem polynomialOf_mul (a b : BitVec w) :
    polynomialOf (Residue.mul tail a b) = (polynomialOf a * polynomialOf b) %ₘ modulus tail := by
  induction a using xor_induction with
  | zero =>
    rw [(Residue.mul_linear_left tail b).map_zero, polynomialOf_zero, zero_mul, zero_modByMonic]
  | bit i =>
    have power : Residue.mul tail (BitVec.twoPow w i) b = (Residue.double tail)^[i] b := by
      have commute := Function.Semiconj.iterate_right
        (show Function.Semiconj (Residue.mul tail · b) _ _ from
          (Residue.double_mul tail · b)) i
      rw [← Residue.iterate_double_one tail i.isLt, commute.eq, Residue.one_mul]
    rw [power, polynomialOf_iterate_double tail i.pos, polynomialOf_twoPow i.isLt]
  | xor x y first second =>
    rw [Residue.xor_mul, polynomialOf_xor, first, second, polynomialOf_xor, add_mul,
      add_modByMonic]

end Residue

end Lib
