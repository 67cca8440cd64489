import Mathlib.Algebra.Polynomial.Sequence
import Mathlib.Data.Nat.Bitwise
import Mathlib.LinearAlgebra.Lagrange
import Mathlib.Tactic.LinearCombination

/-!
# Subspace polynomials in characteristic two

For a sequence of vectors `basis 0, basis 1, …` of a field of characteristic two, `vanish basis level`
is the additive map that vanishes exactly on the binary span of the first `level` of them, and `unit`
is the same map scaled to be one at the next vector. The products of the maps `unit` at the set bits of
an index are the novel polynomials: the one of index `i` has degree `i`, so they are a basis of the
polynomials of bounded degree. Binding the first vectors projects the whole situation: the maps of the
projected vectors, after the projection, are the maps of the higher levels.
-/

namespace Lib.Subspace

open Finset Polynomial

variable {F : Type} [Field F]

/-- The map vanishing on the span of the first `level` vectors. -/
def vanish (basis : Nat → F) : Nat → F → F
  | 0, x => x
  | level + 1, x =>
    vanish basis level x * (vanish basis level x + vanish basis level (basis level))

/-- Its value at the next vector. -/
def normalizer (basis : Nat → F) (level : Nat) : F := vanish basis level (basis level)

/-- The map scaled to be one at the next vector. -/
def unit (basis : Nat → F) (level : Nat) (x : F) : F :=
  vanish basis level x * (normalizer basis level)⁻¹

/-- The sum of the first `count` vectors at the set bits of an index. -/
def combination (basis : Nat → F) (count index : Nat) : F :=
  ∑ bit ∈ range count, if index.testBit bit then basis bit else 0

/-- The product of some factors at the set bits of an index. -/
def monomial (factor : Nat → F) (count index : Nat) : F :=
  ∏ bit ∈ range count, if index.testBit bit then factor bit else 1

/-! ## Combinations and monomials -/

theorem combination_succ (basis : Nat → F) (count index : Nat) :
    combination basis (count + 1) index =
      combination basis count index + if index.testBit count then basis count else 0 :=
  sum_range_succ ..

theorem combination_upper (basis : Nat → F) (count index : Nat) :
    combination basis count (2 ^ count + index) = combination basis count index := by
  refine sum_congr rfl fun bit inside => ?_
  rw [Nat.testBit_two_pow_add_gt (mem_range.1 inside)]

variable {basis : Nat → F}

theorem combination_of_lt {count index : Nat} (below : index < 2 ^ count) (more : Nat) :
    combination basis (count + more) index = combination basis count index := by
  induction more with
  | zero => rfl
  | succ more ih =>
    have clear : index.testBit (count + more) = false :=
      Nat.testBit_lt_two_pow (below.trans_le (Nat.pow_le_pow_right two_pos (by omega)))
    rw [← Nat.add_assoc, combination_succ, ih, clear, if_neg Bool.false_ne_true, add_zero]

/-- An index shifted up selects from the later vectors. -/
theorem combination_shiftLeft (basis : Nat → F) (skip count index : Nat) :
    combination basis (skip + count) (index <<< skip) =
      combination (fun bit => basis (skip + bit)) count index := by
  have lower : ∑ bit ∈ range skip, (if (index <<< skip).testBit bit then basis bit else 0) = 0 := by
    refine sum_eq_zero fun bit inside => ?_
    rw [Nat.testBit_shiftLeft, decide_eq_false (by simpa using mem_range.1 inside), Bool.false_and,
      if_neg Bool.false_ne_true]
  rw [combination, sum_range_add, lower, zero_add, combination]
  refine sum_congr rfl fun bit _ => ?_
  rw [Nat.testBit_shiftLeft, decide_eq_true (by omega), Bool.true_and, Nat.add_sub_cancel_left]

/-- The lowest bit apart: the others select from the later vectors. -/
theorem combination_low (basis : Nat → F) (count index : Nat) :
    combination basis (count + 1) index =
      combination (fun bit => basis (bit + 1)) count (index / 2) +
        if index.testBit 0 then basis 0 else 0 := by
  rw [combination, sum_range_succ', combination]
  simp only [Nat.testBit_succ]

/-- A monomial splits off the factor of its lowest bit. -/
theorem monomial_low (factor : Nat → F) (count index : Nat) :
    monomial factor (count + 1) index =
      monomial (fun bit => factor (bit + 1)) count (index / 2) *
        if index.testBit 0 then factor 0 else 1 := by
  rw [monomial, prod_range_succ', monomial]
  simp only [Nat.testBit_succ]

/-- Setting one more bit above all others brings in its factor. -/
theorem monomial_upper (factor : Nat → F) {count bit index : Nat} (inside : bit < count)
    (below : index < 2 ^ bit) :
    monomial factor count (2 ^ bit + index) = factor bit * monomial factor count index := by
  have high : (2 ^ bit + index).testBit bit = true := by
    rw [Nat.testBit_two_pow_add_eq, Nat.testBit_lt_two_pow below, Bool.not_false]
  rw [monomial, monomial, ← mul_prod_erase _ _ (mem_range.2 inside),
    ← mul_prod_erase (range count) (fun other => if index.testBit other then factor other else 1)
      (mem_range.2 inside), high, Nat.testBit_lt_two_pow below, if_pos rfl,
    if_neg Bool.false_ne_true, one_mul]
  congr 1
  refine prod_congr rfl fun other member => ?_
  have apart := (mem_erase.1 member).1
  rcases Nat.lt_or_gt_of_ne apart with lower | upper
  · rw [Nat.testBit_two_pow_add_gt lower]
  · have wide : 2 ^ bit + index < 2 ^ other := by
      have next : 2 ^ (bit + 1) ≤ 2 ^ other := Nat.pow_le_pow_right two_pos upper
      rw [pow_succ] at next
      omega
    rw [Nat.testBit_lt_two_pow wide, Nat.testBit_lt_two_pow (by omega)]

/-! ## The maps -/

section CharTwo

variable [CharP F 2]

/-- The subspace polynomials are additive. -/
theorem vanish_add (basis : Nat → F) (level : Nat) (x y : F) :
    vanish basis level (x + y) = vanish basis level x + vanish basis level y := by
  induction level generalizing x y with
  | zero => rfl
  | succ level ih =>
    simp only [vanish, ih]
    linear_combination (vanish basis level x * vanish basis level y) * CharTwo.two_eq_zero (R := F)

theorem vanish_zero (basis : Nat → F) (level : Nat) : vanish basis level 0 = 0 := by
  have doubled := vanish_add basis level 0 0
  rwa [add_zero, left_eq_add] at doubled

/-- A subspace polynomial vanishes on the basis below its level. -/
theorem vanish_basis (basis : Nat → F) {bit level : Nat} (below : bit < level) :
    vanish basis level (basis bit) = 0 := by
  induction level with
  | zero => omega
  | succ level ih =>
    rw [vanish]
    rcases Nat.lt_succ_iff_lt_or_eq.1 below with earlier | rfl
    · rw [ih earlier, zero_mul]
    · rw [CharTwo.add_self_eq_zero, mul_zero]

theorem vanish_sum (basis : Nat → F) (level : Nat) (s : Finset Nat) (f : Nat → F) :
    vanish basis level (∑ i ∈ s, f i) = ∑ i ∈ s, vanish basis level (f i) :=
  map_sum (⟨⟨vanish basis level, vanish_zero basis level⟩, vanish_add basis level⟩ : F →+ F) f s

/-- It acts on combinations through their vectors. -/
theorem vanish_combination (basis vectors : Nat → F) (level count index : Nat) :
    vanish basis level (combination vectors count index) =
      combination (fun bit => vanish basis level (vectors bit)) count index := by
  rw [combination, vanish_sum, combination]
  refine sum_congr rfl fun bit _ => ?_
  split
  · rfl
  · exact vanish_zero basis level

/-- So it vanishes on the whole span. -/
theorem vanish_span (basis : Nat → F) (level index : Nat) :
    vanish basis level (combination basis level index) = 0 := by
  rw [vanish_combination]
  refine sum_eq_zero fun bit inside => ?_
  beta_reduce
  rw [vanish_basis basis (mem_range.1 inside), ite_self]

/-- The map vanishes exactly on the span. -/
theorem vanish_eq_zero_iff (basis : Nat → F) (level : Nat) (x : F) :
    vanish basis level x = 0 ↔ ∃ index < 2 ^ level, x = combination basis level index := by
  constructor
  · intro zero
    induction level generalizing x with
    | zero => exact ⟨0, by simp, zero⟩
    | succ level ih =>
      rcases mul_eq_zero.1 zero with left | right
      · obtain ⟨index, below, rfl⟩ := ih x left
        exact ⟨index, by rw [pow_succ]; omega, (combination_of_lt below 1).symm⟩
      · rw [← vanish_add] at right
        obtain ⟨index, below, equal⟩ := ih _ right
        refine ⟨2 ^ level + index, by rw [pow_succ]; omega, ?_⟩
        have high : (2 ^ level + index).testBit level = true := by
          rw [Nat.testBit_two_pow_add_eq, Nat.testBit_lt_two_pow below, Bool.not_false]
        rw [combination_succ, combination_upper, high, if_pos rfl, ← equal, add_assoc,
          CharTwo.add_self_eq_zero, add_zero]
  · rintro ⟨index, -, rfl⟩
    exact vanish_span basis level index

theorem unit_add (basis : Nat → F) (level : Nat) (x y : F) :
    unit basis level (x + y) = unit basis level x + unit basis level y := by
  rw [unit, vanish_add, add_mul, unit, unit]

omit [CharP F 2] in
/-- They are one at their own basis vector. -/
theorem unit_self {basis : Nat → F} {level : Nat} (nonzero : normalizer basis level ≠ 0) :
    unit basis level (basis level) = 1 := mul_inv_cancel₀ nonzero

theorem unit_basis (basis : Nat → F) {bit level : Nat} (below : bit < level) :
    unit basis level (basis bit) = 0 := by
  rw [unit, vanish_basis basis below, zero_mul]

theorem unit_combination (basis vectors : Nat → F) (level count index : Nat) :
    unit basis level (combination vectors count index) =
      combination (fun bit => unit basis level (vectors bit)) count index := by
  rw [unit, vanish_combination, combination, combination, sum_mul]
  refine sum_congr rfl fun bit _ => ?_
  rw [ite_mul, zero_mul]
  rfl

/-- Vectors with nonzero normalizers are independent. -/
theorem combination_eq_zero {basis : Nat → F} {count index : Nat}
    (nonzero : ∀ level < count, normalizer basis level ≠ 0) (below : index < 2 ^ count)
    (zero : combination basis count index = 0) : index = 0 := by
  induction count generalizing index with
  | zero => simpa using below
  | succ count ih =>
    rw [combination_succ] at zero
    have clear : index.testBit count = false := by
      by_contra set
      rw [Bool.not_eq_false] at set
      rw [set, if_pos rfl] at zero
      have inSpan : basis count = combination basis count index := (CharTwo.add_eq_zero.1 zero).symm
      apply nonzero count (Nat.lt_succ_self count)
      rw [normalizer, inSpan, vanish_span]
    have small : index < 2 ^ count := by
      by_contra large
      rw [Nat.testBit_eq_decide_div_mod_eq, decide_eq_false_iff_not] at clear
      rw [not_lt] at large
      rw [pow_succ] at below
      have quotient : index / 2 ^ count = 1 :=
        Nat.div_eq_of_lt_le (by omega) (by omega)
      exact clear (by rw [quotient])
    rw [clear, if_neg Bool.false_ne_true, add_zero] at zero
    exact ih (fun level inside => nonzero level (by omega)) small zero

/-- Adding indices bit by bit adds the points. -/
theorem combination_xor (basis : Nat → F) (count first second : Nat) :
    combination basis count (first ^^^ second) =
      combination basis count first + combination basis count second := by
  rw [combination, combination, combination, ← sum_add_distrib]
  refine sum_congr rfl fun bit _ => ?_
  rw [Nat.testBit_xor]
  cases first.testBit bit <;> cases second.testBit bit <;> simp [CharTwo.add_self_eq_zero]

/-- Different indices name different points of the span. -/
theorem combination_injective {basis : Nat → F} {count first second : Nat}
    (nonzero : ∀ level < count, normalizer basis level ≠ 0) (belowFirst : first < 2 ^ count)
    (belowSecond : second < 2 ^ count)
    (same : combination basis count first = combination basis count second) : first = second := by
  have zero : combination basis count (first ^^^ second) = 0 := by
    rw [combination_xor, same, CharTwo.add_self_eq_zero]
  exact Nat.xor_eq_zero_iff.1
    (combination_eq_zero nonzero (Nat.xor_lt_two_pow belowFirst belowSecond) zero)

end CharTwo

/-! ## The projection -/

/-- The later vectors under the scaled map of a level. -/
def project (basis : Nat → F) (level bit : Nat) : F := unit basis level (basis (level + bit))

/-- The subspace polynomials of the projected basis are those of the higher levels, scaled. -/
theorem vanish_project [CharP F 2] (basis : Nat → F) (level upper : Nat) (x : F) :
    vanish (project basis level) upper (unit basis level x) =
      vanish basis (level + upper) x * (normalizer basis level)⁻¹ ^ 2 ^ upper := by
  induction upper generalizing x with
  | zero => rw [pow_zero, pow_one]; rfl
  | succ upper ih =>
    rw [vanish, ih, project, ih, Nat.add_succ, vanish, pow_succ 2, pow_mul]
    ring

/-- So are their normalizers. -/
theorem normalizer_project [CharP F 2] (basis : Nat → F) (level upper : Nat) :
    normalizer (project basis level) upper =
      normalizer basis (level + upper) * (normalizer basis level)⁻¹ ^ 2 ^ upper :=
  vanish_project basis level upper _

theorem normalizer_project_ne_zero [CharP F 2] {level upper : Nat}
    (lower : normalizer basis level ≠ 0) (higher : normalizer basis (level + upper) ≠ 0) :
    normalizer (project basis level) upper ≠ 0 := by
  rw [normalizer_project]
  exact mul_ne_zero higher (pow_ne_zero _ (inv_ne_zero lower))

/-- Normalised, they are the same. -/
theorem unit_project [CharP F 2] {level : Nat} (nonzero : normalizer basis level ≠ 0) (upper : Nat)
    (x : F) :
    unit (project basis level) upper (unit basis level x) = unit basis (level + upper) x := by
  have scale : (normalizer basis level)⁻¹ ^ 2 ^ upper ≠ 0 := pow_ne_zero _ (inv_ne_zero nonzero)
  rw [unit, vanish_project, normalizer_project, unit, mul_inv, mul_mul_mul_comm,
    mul_inv_cancel₀ scale, mul_one]

/-! ## The novel polynomials -/

/-- The polynomial of the map of a level. -/
noncomputable def vanishing (basis : Nat → F) : Nat → F[X]
  | 0 => X
  | level + 1 => vanishing basis level * (vanishing basis level + C (normalizer basis level))

/-- The polynomial form evaluates to the recursion. -/
theorem eval_vanishing (basis : Nat → F) (level : Nat) (x : F) :
    (vanishing basis level).eval x = vanish basis level x := by
  induction level with
  | zero => exact eval_X
  | succ level ih => rw [vanishing, eval_mul, eval_add, eval_C, ih]; rfl

/-- A subspace polynomial is monic, of the degree of the size of the subspace. -/
theorem vanishing_monic (basis : Nat → F) (level : Nat) :
    (vanishing basis level).Monic ∧ (vanishing basis level).natDegree = 2 ^ level := by
  induction level with
  | zero => exact ⟨monic_X, natDegree_X⟩
  | succ level ih =>
    obtain ⟨monic, degree⟩ := ih
    have lower : (C (normalizer basis level)).degree < (vanishing basis level).degree := by
      refine degree_C_le.trans_lt ?_
      rw [degree_eq_natDegree monic.ne_zero, degree]
      exact_mod_cast Nat.two_pow_pos level
    have sumMonic : (vanishing basis level + C (normalizer basis level)).Monic :=
      monic.add_of_left lower
    refine ⟨monic.mul sumMonic, ?_⟩
    rw [vanishing, monic.natDegree_mul sumMonic, natDegree_add_C, degree, pow_succ]
    omega

/-- The novel polynomial of an index. -/
noncomputable def novel (basis : Nat → F) (count index : Nat) : F[X] :=
  ∏ bit ∈ range count,
    if index.testBit bit then vanishing basis bit * C (normalizer basis bit)⁻¹ else 1

/-- The polynomials of the novel basis evaluate to monomials in the normalised ones. -/
theorem eval_novel (basis : Nat → F) (count index : Nat) (x : F) :
    (novel basis count index).eval x = monomial (fun bit => unit basis bit x) count index := by
  rw [novel, eval_prod, monomial]
  refine prod_congr rfl fun bit _ => ?_
  split
  · rw [eval_mul, eval_C, eval_vanishing, unit]
  · exact eval_one

/-- Each has the degree of its index. -/
theorem degree_novel_mod {count : Nat} (nonzero : ∀ level < count, normalizer basis level ≠ 0)
    (index : Nat) :
    (novel basis count index).degree = ((index % 2 ^ count : Nat) : WithBot Nat) := by
  induction count with
  | zero => simp [novel, Nat.mod_one]
  | succ count ih =>
    have step : novel basis (count + 1) index = novel basis count index *
        if index.testBit count then vanishing basis count * C (normalizer basis count)⁻¹ else 1 :=
      prod_range_succ ..
    rw [step, degree_mul, ih fun level inside => nonzero level (by omega), Nat.mod_pow_succ,
      ← Nat.toNat_testBit]
    cases index.testBit count with
    | false => simp
    | true =>
      obtain ⟨monic, degree⟩ := vanishing_monic basis count
      rw [if_pos rfl, degree_mul, degree_C (inv_ne_zero (nonzero count (Nat.lt_succ_self count))),
        degree_eq_natDegree monic.ne_zero, degree, add_zero, Bool.toNat_true, mul_one]
      norm_cast

/-- The novel polynomial of index `i` has degree `i`. -/
theorem degree_novel {count index : Nat} (nonzero : ∀ level < count, normalizer basis level ≠ 0)
    (below : index < 2 ^ count) :
    (novel basis count index).degree = index := by
  rw [degree_novel_mod nonzero, Nat.mod_eq_of_lt below]

/-! ## The additive transform

A butterfly at level `folds + rest` binds bit `rest` of the message index. After `done` layers, block
`block` of the table holds the message summed over its bound bits, with the values of the maps at the
point of the block. -/

section Transform

variable (basis : Nat → F) (shift : F) (folds : Nat) (message : Nat → F)

/-- The point of a block. -/
def blockPoint (rest done block : Nat) : F :=
  shift + combination (fun bit => basis (folds + rest + bit)) done block

/-- The entry at an offset of a block. -/
def blockEntry (rest done block offset : Nat) : F :=
  ∑ bound ∈ range (2 ^ done), message (bound * 2 ^ rest + offset) *
    monomial (fun bit => unit basis (folds + rest + bit) (blockPoint basis shift folds rest done block))
      done bound

/-- Before the first layer a block holds the message. -/
theorem blockEntry_start (rest offset : Nat) :
    blockEntry basis shift folds message rest 0 0 offset = message offset := by
  simp [blockEntry, monomial]

theorem sum_range_double (count : Nat) (f : Nat → F) :
    ∑ i ∈ range (count + count), f i = ∑ i ∈ range count, (f (2 * i) + f (2 * i + 1)) := by
  induction count with
  | zero => simp
  | succ count ih =>
    rw [show count + 1 + (count + 1) = count + count + 1 + 1 by omega, sum_range_succ,
      sum_range_succ, ih, sum_range_succ, show 2 * count = count + count by omega, add_assoc]

/-- A block splits in two at the next basis vector. -/
theorem blockPoint_double (rest done block : Nat) (upper : Bool) :
    blockPoint basis shift folds rest (done + 1) (2 * block + upper.toNat) =
      blockPoint basis shift folds (rest + 1) done block +
        if upper then basis (folds + rest) else 0 := by
  have half : (2 * block + upper.toNat) / 2 = block := by
    have := upper.toNat_lt
    omega
  have low : (2 * block + upper.toNat).testBit 0 = upper := by
    cases upper <;> simp [Nat.testBit_zero]
  rw [blockPoint, combination_low, half, low, blockPoint, ← add_assoc]
  simp only [Nat.add_zero, Nat.add_assoc, Nat.add_comm 1]

variable [CharP F 2]

/-- One butterfly. -/
theorem blockEntry_double {rest : Nat} (nonzero : normalizer basis (folds + rest) ≠ 0)
    (done block offset : Nat) (upper : Bool) :
    blockEntry basis shift folds message rest (done + 1) (2 * block + upper.toNat) offset =
      blockEntry basis shift folds message (rest + 1) done block offset +
        blockEntry basis shift folds message (rest + 1) done block (2 ^ rest + offset) *
          (unit basis (folds + rest) (blockPoint basis shift folds (rest + 1) done block) +
            if upper then 1 else 0) := by
  have point := blockPoint_double basis shift folds rest done block upper
  have lowest : unit basis (folds + rest)
      (blockPoint basis shift folds rest (done + 1) (2 * block + upper.toNat)) =
      unit basis (folds + rest) (blockPoint basis shift folds (rest + 1) done block) +
        if upper then 1 else 0 := by
    rw [point, unit_add]
    cases upper with
    | false => simp [unit, vanish_zero]
    | true => rw [if_pos rfl, if_pos rfl, unit_self nonzero]
  have higher : ∀ bit, unit basis (folds + rest + (bit + 1))
      (blockPoint basis shift folds rest (done + 1) (2 * block + upper.toNat)) =
      unit basis (folds + (rest + 1) + bit)
        (blockPoint basis shift folds (rest + 1) done block) := by
    intro bit
    rw [show folds + rest + (bit + 1) = folds + (rest + 1) + bit by omega, point, unit_add]
    cases upper with
    | false => simp [unit, vanish_zero]
    | true => rw [if_pos rfl, unit_basis basis (by omega), add_zero]
  rw [blockEntry, show 2 ^ (done + 1) = 2 ^ done + 2 ^ done by omega, sum_range_double,
    sum_add_distrib, blockEntry, blockEntry, sum_mul]
  congr 1
  · refine sum_congr rfl fun bound _ => ?_
    rw [monomial_low, Nat.mul_div_cancel_left _ two_pos, Nat.testBit_zero,
      Nat.mul_mod_right, decide_eq_false (by decide), if_neg Bool.false_ne_true, mul_one,
      show 2 * bound * 2 ^ rest = bound * 2 ^ (rest + 1) by rw [pow_succ]; ring]
    simp only [higher]
  · refine sum_congr rfl fun bound _ => ?_
    have odd : (2 * bound + 1) % 2 = 1 := by omega
    have half : (2 * bound + 1) / 2 = bound := by omega
    rw [monomial_low, half, Nat.testBit_zero, odd, decide_eq_true rfl, if_pos rfl,
      show (2 * bound + 1) * 2 ^ rest + offset =
        bound * 2 ^ (rest + 1) + (2 ^ rest + offset) by rw [pow_succ]; ring]
    simp only [higher, Nat.add_zero, lowest]
    ring

/-- After all layers a block is one entry: the message against the novel polynomials of the projected
vectors, at the projected point. -/
theorem blockEntry_end (nonzero : normalizer basis folds ≠ 0) (count block : Nat) :
    blockEntry basis shift folds message 0 count block 0 =
      ∑ i ∈ range (2 ^ count), message i * (novel (project basis folds) count i).eval
        (unit basis folds (shift + combination (fun bit => basis (folds + bit)) count block)) := by
  rw [blockEntry]
  refine sum_congr rfl fun i _ => ?_
  rw [eval_novel, pow_zero, mul_one, Nat.add_zero]
  simp only [unit_project nonzero, blockPoint, Nat.add_zero]

end Transform

/-! ## Polynomials of increasing degree -/

section Degrees

variable {k : Nat} {p : Nat → F[X]}

/-- A finite family with degrees `0, 1, …` continued to a sequence. -/
noncomputable def toSequence (degrees : ∀ i < k, (p i).degree = i) : Sequence F where
  elems' i := if i < k then p i else X ^ i
  degree_eq' i := by
    split
    · exact degrees i ‹_›
    · exact degree_X_pow i

section

variable {i : Nat} (degrees : ∀ i < k, (p i).degree = i)
include degrees

theorem toSequence_apply (inside : i < k) :
    toSequence degrees i = p i := if_pos inside

/-- A combination with a nonzero coefficient is not zero and of degree below `k`. -/
theorem degree_sum_lt (c : Nat → F) :
    (∑ i ∈ range k, C (c i) * p i).degree < k := by
  refine (degree_sum_le _ _).trans_lt ((Finset.sup_lt_iff (WithBot.bot_lt_coe k)).2 fun i inside => ?_)
  have small := mem_range.1 inside
  refine (degree_mul_le _ _).trans_lt ?_
  rw [degrees i small]
  refine (add_le_add_left degree_C_le _).trans_lt ?_
  rw [zero_add]
  exact Nat.cast_lt.2 small

/-- A combination with a coefficient that is not zero is not zero. -/
theorem sum_ne_zero {c : Nat → F} (inside : i < k) (nonzero : c i ≠ 0) :
    ∑ i ∈ range k, C (c i) * p i ≠ 0 := by
  intro zero
  apply nonzero
  refine linearIndependent_iff'.1 (toSequence degrees).linearIndependent (range k) c ?_ i
    (mem_range.2 inside)
  rw [← zero]
  refine sum_congr rfl fun i member => ?_
  rw [toSequence_apply degrees (mem_range.1 member), smul_eq_C_mul]

/-- Every polynomial of degree below `k` is a combination. -/
theorem exists_sum_eq {q : F[X]} (small : q.degree < k) :
    ∃ c : Nat → F, ∑ i ∈ range k, C (c i) * p i = q := by
  have units : ∀ i < k, IsUnit (toSequence degrees i).leadingCoeff := fun i _ =>
    IsUnit.mk0 _ (leadingCoeff_ne_zero.2 ((toSequence degrees).ne_zero i))
  have member : q ∈ Submodule.span F (toSequence degrees '' Set.Iio k) := by
    rw [(toSequence degrees).span_degreeLT units]
    exact mem_degreeLT.2 small
  have coerced : (Set.Iio k : Set Nat) = ((range k : Finset Nat) : Set Nat) := by
    ext i
    simp
  rw [coerced, Submodule.mem_span_image_finset_iff_exists_fun'] at member
  obtain ⟨c, equal⟩ := member
  refine ⟨c, equal ▸ sum_congr rfl fun i inside => ?_⟩
  rw [toSequence_apply degrees (mem_range.1 inside), smul_eq_C_mul]

end

end Degrees

end Lib.Subspace
