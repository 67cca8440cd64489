import Mathlib.Algebra.BigOperators.Fin
import Mathlib.Algebra.BigOperators.Group.List.Basic
import Mathlib.Algebra.Polynomial.Eval.Degree
import Mathlib.Data.List.GetD
import Mathlib.Tactic.ComputeDegree
import Mathlib.Tactic.Ring

/-!
# Multilinear tables

A list of `2 ^ n` values is the table of a multilinear polynomial in `n` variables; bit `k` of an index
is variable `k`. Binding the highest variable mixes the two halves of the table. Binding all of them,
from the highest to the lowest, evaluates the multilinear extension. The sum over the cube of the
product of two tables becomes, when the highest variable is left open, a polynomial of degree at most
two whose values at zero and one add up to it: the round polynomial of a product sumcheck.
-/

namespace Lib.Multilinear

open Polynomial

variable {R T : Type} [CommRing R] [CommRing T]

/-- The sum of the products of two tables. -/
def dot (s t : List R) : R := (List.zipWith (· * ·) s t).sum

/-- Bind the highest variable: the line through the two halves, at `r`. -/
def bindHighest (t : List R) (r : R) : List R :=
  List.zipWith (fun lo hi => lo + r * (hi - lo)) (t.take (t.length / 2)) (t.drop (t.length / 2))

/-- Bind the variables from the highest down. -/
def bindAll (t : List R) (challenges : List R) : List R := challenges.foldl bindHighest t

/-- The weight of an index of the cube in the value at a point. -/
def weight (point : List R) (index : Nat) : R :=
  ∏ k ∈ Finset.range point.length,
    if index.testBit k then point.getD k 0 else 1 - point.getD k 0

/-- The multilinear extension of a table. -/
def extension (t : List R) (point : List R) : R :=
  ∑ index ∈ Finset.range (2 ^ point.length), t.getD index 0 * weight point index

/-! ## Binding one variable -/

theorem length_bindHighest {t : List R} {n : Nat} (size : t.length = 2 ^ (n + 1)) (r : R) :
    (bindHighest t r).length = 2 ^ n := by
  simp only [bindHighest, List.length_zipWith, List.length_take, List.length_drop, size, pow_succ]
  omega

theorem getD_bindHighest {t : List R} {n : Nat} (size : t.length = 2 ^ (n + 1)) (r : R) {index : Nat}
    (inside : index < 2 ^ n) :
    (bindHighest t r).getD index 0 =
      t.getD index 0 + r * (t.getD (2 ^ n + index) 0 - t.getD index 0) := by
  have half : t.length / 2 = 2 ^ n := by rw [size, pow_succ]; omega
  have low : index < t.length := by rw [size, pow_succ]; omega
  have high : 2 ^ n + index < t.length := by rw [size, pow_succ]; omega
  rw [List.getD_eq_getElem _ _ (by rw [length_bindHighest size]; exact inside),
    List.getD_eq_getElem _ _ low, List.getD_eq_getElem _ _ high]
  simp [bindHighest, half]

theorem map_bindHighest (f : R →+* T) (t : List R) (r : R) :
    (bindHighest t r).map f = bindHighest (t.map f) (f r) := by
  simp [bindHighest, List.map_zipWith, List.zipWith_map, ← List.map_take, ← List.map_drop]

theorem map_dot (f : R →+* T) (s t : List R) : f (dot s t) = dot (s.map f) (t.map f) := by
  simp [dot, map_list_sum, List.map_zipWith, List.zipWith_map]

/-- Binding to zero keeps the lower half, binding to one the upper half. -/
theorem bindHighest_zero {t : List R} {half : Nat} (size : t.length = half + half) :
    bindHighest t 0 = t.take half := by
  have halved : t.length / 2 = half := by omega
  refine List.ext_getElem ?_ fun i _ _ => ?_
  · simp only [bindHighest, halved, List.length_zipWith, List.length_take, List.length_drop]
    omega
  · simp [bindHighest, halved]

theorem bindHighest_one {t : List R} {half : Nat} (size : t.length = half + half) :
    bindHighest t 1 = t.drop half := by
  have halved : t.length / 2 = half := by omega
  refine List.ext_getElem ?_ fun i _ _ => ?_
  · simp only [bindHighest, halved, List.length_zipWith, List.length_take, List.length_drop]
    omega
  · simp [bindHighest, halved]

theorem dot_halves (s t : List R) (half : Nat) :
    dot s t = dot (s.take half) (t.take half) + dot (s.drop half) (t.drop half) := by
  rw [dot, dot, dot, ← List.take_zipWith, ← List.drop_zipWith, List.sum_take_add_sum_drop]

/-! ## The round polynomial -/

/-- The sum of products with the highest variable left open. -/
noncomputable def roundPolynomial (s t : List R) : R[X] :=
  dot (bindHighest (s.map C) X) (bindHighest (t.map C) X)

/-- The round polynomial evaluates to the inner product of the bound tables. -/
theorem eval_roundPolynomial (s t : List R) (r : R) :
    (roundPolynomial s t).eval r = dot (bindHighest s r) (bindHighest t r) := by
  have constants (u : List R) : (u.map C).map (evalRingHom r) = u := by
    simp [List.map_map, Function.comp_def]
  rw [← coe_evalRingHom, roundPolynomial, map_dot, map_bindHighest, map_bindHighest, constants,
    constants, coe_evalRingHom, eval_X]

theorem natDegree_dot_le {s t : List R[X]} {a b : Nat} (left : ∀ p ∈ s, p.natDegree ≤ a)
    (right : ∀ p ∈ t, p.natDegree ≤ b) : (dot s t).natDegree ≤ a + b := by
  induction s generalizing t with
  | nil => simp [dot]
  | cons p s ih =>
    cases t with
    | nil => simp [dot]
    | cons q t =>
      have head : (p * q).natDegree ≤ a + b :=
        natDegree_mul_le_of_le (left p List.mem_cons_self) (right q List.mem_cons_self)
      have rest : (dot s t).natDegree ≤ a + b :=
        ih (fun p member => left p (List.mem_cons_of_mem _ member))
          fun q member => right q (List.mem_cons_of_mem _ member)
      simpa [dot] using natDegree_add_le_of_degree_le head rest

theorem natDegree_open_le (t : List R) : ∀ p ∈ bindHighest (t.map C) X, p.natDegree ≤ 1 := by
  intro p member
  simp only [bindHighest, List.length_map, ← List.map_take, ← List.map_drop,
    List.zipWith_map] at member
  obtain ⟨i, inside, rfl⟩ := List.getElem_of_mem member
  rw [List.getElem_zipWith, ← C_sub]
  compute_degree

theorem natDegree_roundPolynomial_le (s t : List R) : (roundPolynomial s t).natDegree ≤ 2 :=
  natDegree_dot_le (natDegree_open_le s) (natDegree_open_le t)

/-- The values at zero and one add up to the whole sum. -/
theorem roundPolynomial_endpoints {s t : List R} {half : Nat} (left : s.length = half + half)
    (right : t.length = half + half) :
    (roundPolynomial s t).eval 0 + (roundPolynomial s t).eval 1 = dot s t := by
  rw [eval_roundPolynomial, eval_roundPolynomial, bindHighest_zero left, bindHighest_zero right,
    bindHighest_one left, bindHighest_one right, ← dot_halves]

/-! ## Binding all variables -/

theorem bindAll_concat (t challenges : List R) (r : R) :
    bindAll t (challenges ++ [r]) = bindHighest (bindAll t challenges) r := by
  simp [bindAll, List.foldl_append]

theorem length_bindAll {t : List R} {n : Nat} {challenges : List R}
    (size : t.length = 2 ^ (n + challenges.length)) : (bindAll t challenges).length = 2 ^ n := by
  induction challenges generalizing t with
  | nil => simpa [bindAll] using size
  | cons r challenges ih => exact ih (length_bindHighest size r)

theorem weight_concat (point : List R) (x : R) (index : Nat) :
    weight (point ++ [x]) index =
      weight point index * if index.testBit point.length then x else 1 - x := by
  rw [weight, List.length_append, List.length_singleton, Finset.prod_range_succ, weight]
  congr 1
  · refine Finset.prod_congr rfl fun k inside => ?_
    rw [List.getD_append _ _ _ _ (Finset.mem_range.1 inside)]
  · rw [List.getD_append_right _ _ _ _ le_rfl, Nat.sub_self, List.getD_cons_zero]

theorem weight_upper (point : List R) (index : Nat) :
    weight point (2 ^ point.length + index) = weight point index := by
  refine Finset.prod_congr rfl fun k inside => ?_
  rw [Nat.testBit_two_pow_add_gt (Finset.mem_range.1 inside)]

/-- The extension bound at its highest variable is the extension of the bound table. -/
theorem extension_concat {t : List R} {point : List R} (size : t.length = 2 ^ (point.length + 1))
    (x : R) : extension t (point ++ [x]) = extension (bindHighest t x) point := by
  have split : 2 ^ (point ++ [x]).length = 2 ^ point.length + 2 ^ point.length := by
    rw [List.length_append, List.length_singleton, pow_succ]
    omega
  rw [extension, extension, split, Finset.sum_range_add, ← Finset.sum_add_distrib]
  refine Finset.sum_congr rfl fun index inside => ?_
  have below := Finset.mem_range.1 inside
  have highBit : (2 ^ point.length + index).testBit point.length = true := by
    rw [Nat.testBit_two_pow_add_eq, Nat.testBit_lt_two_pow below, Bool.not_false]
  rw [weight_concat, weight_concat, weight_upper, highBit, Nat.testBit_lt_two_pow below,
    getD_bindHighest size x below, if_pos rfl, if_neg Bool.false_ne_true]
  ring

/-- Binding every variable, from the highest down, leaves the value of the extension. -/
theorem bindAll_reverse {t point : List R} (size : t.length = 2 ^ point.length) :
    bindAll t point.reverse = [extension t point] := by
  induction point using List.reverseRecOn generalizing t with
  | nil =>
    obtain ⟨value, rfl⟩ := List.length_eq_one_iff.1 size
    simp [bindAll, extension, weight]
  | append_singleton point x ih =>
    rw [List.length_append, List.length_singleton] at size
    rw [List.reverse_append, List.reverse_singleton, List.singleton_append,
      extension_concat size, ← ih (length_bindHighest size x)]
    rfl

end Lib.Multilinear
