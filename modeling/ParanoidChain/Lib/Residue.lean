import Mathlib.Data.List.Basic
import ParanoidChain.Lib.Xor

/-!
# Binary polynomials modulo a polynomial

A word of `w` bits as a polynomial over GF(2) modulo `x ^ w + tail`: bit `i` is the coefficient of
`x ^ i`, the sum is exclusive or, and the product adds a shifted and reduced copy of one factor for
each bit of the other. The ring laws hold for every width and every tail, since a linear map that
commutes with the multiplication by `x` is fixed by its value at one.
-/

namespace Lib

namespace Linear

variable {u v w : Nat} {f : BitVec w → BitVec v}

theorem refl : Linear (fun x : BitVec w => x) := fun _ _ => rfl

theorem zero : Linear (fun _ : BitVec w => 0#v) := fun _ _ => BitVec.xor_self.symm

theorem ushiftRight (count : Nat) : Linear (fun x : BitVec w => x >>> count) :=
  fun x y => BitVec.ushiftRight_xor_distrib x y count

theorem iterate {step : BitVec w → BitVec w} (linear : Linear step) (count : Nat) :
    Linear (step^[count]) := by
  induction count with
  | zero => exact fun _ _ => rfl
  | succ count ih => exact ih.comp linear

/-- A linear map goes through a loop that adds terms. -/
theorem map_foldl_terms (linear : Linear f) (term : Nat → BitVec w) (list : List Nat)
    (start : BitVec w) :
    f (list.foldl (fun sum i => sum ^^^ term i) start) =
      list.foldl (fun sum i => sum ^^^ f (term i)) (f start) := by
  induction list generalizing start with
  | nil => rfl
  | cons i rest ih => rw [List.foldl_cons, List.foldl_cons, ih, linear]

theorem map_ite (linear : Linear f) (condition : Bool) (word : BitVec w) :
    f (if condition then word else 0#w) = if condition then f word else 0#v := by
  cases condition
  · exact linear.map_zero
  · rfl

end Linear

/-- The bits of a word, added up again. -/
theorem foldl_bits {w : Nat} (word : BitVec w) (count : Nat) :
    (List.range count).foldl
        (fun sum i => sum ^^^ (if word.getLsbD i then BitVec.twoPow w i else 0#w)) 0#w =
      lowBits word count := by
  induction count with
  | zero => exact (lowBits_zero word).symm
  | succ count ih => rw [List.range_succ, List.foldl_append, ih, lowBits_succ]; rfl

theorem foldl_xor_start {v : Nat} (term : Nat → BitVec v) (list : List Nat) (start : BitVec v) :
    list.foldl (fun sum i => sum ^^^ term i) start =
      start ^^^ list.foldl (fun sum i => sum ^^^ term i) 0#v := by
  induction list generalizing start with
  | nil => exact BitVec.xor_zero.symm
  | cons i rest ih =>
    rw [List.foldl_cons, ih, List.foldl_cons, ih (0#v ^^^ term i), BitVec.zero_xor,
      BitVec.xor_assoc]

theorem setWidth_twoPow {v w : Nat} (wide : w ≤ v) {i : Nat} (inside : i < w) :
    (BitVec.twoPow w i).setWidth v = BitVec.twoPow v i := by
  apply BitVec.eq_of_getLsbD_eq
  intro k bound
  simp only [BitVec.getLsbD_setWidth, BitVec.getLsbD_twoPow, bound, inside, decide_true,
    Bool.true_and]
  simp [show i < v by omega]

theorem beq_mod_two {v : Nat} (word : BitVec v) :
    Nat.beq (word.toNat % 2) 1 = word.getLsbD 0 := by
  rw [BitVec.getLsbD, Nat.testBit_zero, Bool.eq_iff_iff, Nat.beq_eq, decide_eq_true_iff]

namespace Residue

variable {w : Nat} (tail : BitVec w)

/-- The product with `x`. -/
def double (a : BitVec w) : BitVec w :=
  a <<< 1 ^^^ (if a.getLsbD (w - 1) then tail else 0#w)

/-- The product modulo `x ^ w + tail`. -/
def mul (a b : BitVec w) : BitVec w :=
  (List.range w).foldl
    (fun sum i => sum ^^^ (if b.getLsbD i then (double tail)^[i] a else 0#w)) 0#w

theorem double_linear : Linear (double tail) := (Linear.shiftLeft 1).xor (.select (w - 1) tail)

/-- The product is linear in the left factor. -/
theorem mul_linear_left (b : BitVec w) : Linear (mul tail · b) := by
  apply Linear.foldl_terms
  intro i
  cases b.getLsbD i
  · exact .zero
  · exact (double_linear tail).iterate i

theorem mul_linear_right (a : BitVec w) : Linear (mul tail a) :=
  .foldl_terms (fun i => .select i _) _

theorem xor_mul (a b c : BitVec w) : mul tail (a ^^^ b) c = mul tail a c ^^^ mul tail b c :=
  mul_linear_left tail c a b

theorem mul_xor (a b c : BitVec w) : mul tail a (b ^^^ c) = mul tail a b ^^^ mul tail a c :=
  mul_linear_right tail a b c

/-- A factor `x` moves out of the left factor. -/
theorem double_mul (a b : BitVec w) : mul tail (double tail a) b = double tail (mul tail a b) := by
  rw [mul, mul, (double_linear tail).map_foldl_terms, (double_linear tail).map_zero]
  congr 1
  funext sum i
  rw [(double_linear tail).map_ite, ← Function.iterate_succ_apply, Function.iterate_succ_apply']

/-- Below the top bit, multiplying by `x` shifts. -/
theorem double_twoPow {i : Nat} (inside : i + 1 < w) :
    double tail (BitVec.twoPow w i) = BitVec.twoPow w (i + 1) := by
  have low : (BitVec.twoPow w i).getLsbD (w - 1) = false := by
    rw [BitVec.getLsbD_twoPow]
    simp only [Bool.and_eq_false_imp, decide_eq_true_eq, decide_eq_false_iff_not]
    omega
  rw [double, low, if_neg Bool.false_ne_true, BitVec.xor_zero, BitVec.twoPow, BitVec.twoPow,
    ← BitVec.shiftLeft_add]

/-- The powers of `x` below the width are the powers of two. -/
theorem iterate_double_one {i : Nat} (inside : i < w) :
    (double tail)^[i] 1#w = BitVec.twoPow w i := by
  induction i with
  | zero => rw [BitVec.twoPow_zero]; rfl
  | succ i ih => rw [Function.iterate_succ_apply', ih (by omega), double_twoPow tail inside]

theorem one_mul (b : BitVec w) : mul tail 1#w b = b := by
  have terms : mul tail 1#w b =
      (List.range w).foldl
        (fun sum i => sum ^^^ (if b.getLsbD i then BitVec.twoPow w i else 0#w)) 0#w := by
    apply List.foldl_ext
    intro sum i member
    rw [iterate_double_one tail (List.mem_range.mp member)]
  rw [terms, foldl_bits, lowBits_full]

/-- A linear map that commutes with the product by `x` is fixed by its value at one. -/
theorem eq_of_commute {f g : BitVec w → BitVec w} (first : Linear f) (second : Linear g)
    (commute : ∀ a, f (double tail a) = double tail (f a))
    (commute' : ∀ a, g (double tail a) = double tail (g a)) (one : f 1#w = g 1#w) (a : BitVec w) :
    f a = g a := by
  refine first.eq_of_bits second ?_ a
  intro i
  have left := Function.Semiconj.iterate_right (show Function.Semiconj f _ _ from commute) i
  have right := Function.Semiconj.iterate_right (show Function.Semiconj g _ _ from commute') i
  rw [← iterate_double_one tail i.isLt, left.eq, right.eq, one]

theorem mul_one (a : BitVec w) : mul tail a 1#w = a :=
  eq_of_commute tail (mul_linear_left tail 1#w) Linear.refl
    (double_mul tail · 1#w) (fun _ => rfl) (one_mul tail 1#w) a

/-- A factor `x` moves out of the right factor. -/
theorem mul_double (a b : BitVec w) : mul tail a (double tail b) = double tail (mul tail a b) := by
  refine eq_of_commute tail (mul_linear_left tail _)
    ((double_linear tail).comp (mul_linear_left tail b)) (double_mul tail · _) ?_ ?_ a
  · intro c
    rw [double_mul]
  · rw [one_mul, one_mul]

/-- The product is commutative: by linearity, powers of `x` are enough. -/
theorem mul_comm (a b : BitVec w) : mul tail a b = mul tail b a := by
  refine eq_of_commute tail (mul_linear_left tail b) (mul_linear_right tail b)
    (double_mul tail · b) (mul_double tail b) ?_ a
  rw [one_mul, mul_one]

/-- The product is associative, by linearity again. -/
theorem mul_assoc (a b c : BitVec w) : mul tail (mul tail a b) c = mul tail a (mul tail b c) := by
  refine eq_of_commute tail ((mul_linear_left tail c).comp (mul_linear_left tail b))
    (mul_linear_left tail _) ?_ (double_mul tail · _) ?_ a
  · intro d
    rw [double_mul, double_mul]
  · rw [one_mul, one_mul]

/-- The product of two single bits. -/
theorem mul_twoPow {i j : Nat} (first : i < w) (second : j < w) :
    mul tail (BitVec.twoPow w i) (BitVec.twoPow w j) = (double tail)^[i + j] 1#w := by
  have commute := Function.Semiconj.iterate_right
    (show Function.Semiconj (mul tail · (BitVec.twoPow w j)) _ _ from (double_mul tail · _)) i
  have start := commute.eq 1#w
  rw [iterate_double_one tail first] at start
  rw [start, one_mul, ← iterate_double_one tail second, Function.iterate_add_apply]

/-! ## Evaluation on numbers -/

/-- `double` on numbers. -/
def doubleNat (w tail a : Nat) : Nat :=
  cond (Nat.ble (2 ^ w) (2 * a)) ((2 * a - 2 ^ w) ^^^ tail) (2 * a)

/-- The first `count` steps of `mul` on numbers. -/
def mulNat (w tail : Nat) : Nat → Nat → Nat → Nat
  | 0, _, _ => 0
  | count + 1, a, b =>
    cond (Nat.beq (b % 2) 1) a 0 ^^^ mulNat w tail count (doubleNat w tail a) (b / 2)

/-- Doubling on numbers, for evaluation in the kernel. -/
theorem toNat_double (positive : 0 < w) (a : BitVec w) :
    (double tail a).toNat = doubleNat w tail.toNat a.toNat := by
  have top : a.getLsbD (w - 1) = decide (2 ^ (w - 1) ≤ a.toNat) := by
    rw [← BitVec.msb_eq_decide, BitVec.msb_eq_getLsbD_last]
  have bound := a.isLt
  have half : 2 ^ w = 2 * 2 ^ (w - 1) := by
    rw [← Nat.pow_succ', Nat.succ_eq_add_one, Nat.sub_add_cancel positive]
  have shifted : (a <<< 1).toNat = 2 * a.toNat % 2 ^ w := by
    rw [BitVec.toNat_shiftLeft, Nat.shiftLeft_eq, pow_one, Nat.mul_comm]
  rw [double, top, BitVec.toNat_xor, shifted, doubleNat]
  by_cases large : 2 ^ (w - 1) ≤ a.toNat
  · have wraps : 2 * a.toNat % 2 ^ w = 2 * a.toNat - 2 ^ w := by
      rw [Nat.mod_eq_sub_mod (by omega), Nat.mod_eq_of_lt (by omega)]
    have test : Nat.ble (2 ^ w) (2 * a.toNat) = true := Nat.ble_eq.mpr (by omega)
    rw [test, wraps]
    simp [large]
  · have stays : 2 * a.toNat % 2 ^ w = 2 * a.toNat := Nat.mod_eq_of_lt (by omega)
    have test : Nat.ble (2 ^ w) (2 * a.toNat) = false := by
      rw [Bool.eq_false_iff, ne_eq, Nat.ble_eq]
      omega
    rw [test, stays]
    simp [large]

/-- The product on numbers, for evaluation in the kernel. -/
theorem toNat_foldl_mul (positive : 0 < w) (count : Nat) (a b : BitVec w) :
    ((List.range count).foldl
      (fun sum i => sum ^^^ (if b.getLsbD i then (double tail)^[i] a else 0#w)) 0#w).toNat =
    mulNat w tail.toNat count a.toNat b.toNat := by
  induction count generalizing a b with
  | zero => rfl
  | succ count ih =>
    have lowest : cond (Nat.beq (b.toNat % 2) 1) a.toNat 0 =
        (if b.getLsbD 0 then a else 0#w).toNat := by
      rw [beq_mod_two]
      cases b.getLsbD 0 <;> rfl
    have rest := ih (double tail a) (b >>> 1)
    simp only [BitVec.getLsbD_ushiftRight, ← Function.iterate_succ_apply,
      BitVec.toNat_ushiftRight, Nat.shiftRight_one, toNat_double tail positive] at rest
    rw [List.range_succ_eq_map, List.foldl_cons, foldl_xor_start, List.foldl_map, mulNat, lowest,
      ← rest, BitVec.toNat_xor, BitVec.zero_xor]
    simp only [Function.iterate_zero_apply, Nat.add_comm 1]

/-- `mul` evaluated on numbers, the reduced copy carried along. -/
theorem toNat_mul (positive : 0 < w) (a b : BitVec w) :
    (mul tail a b).toNat = mulNat w tail.toNat w a.toNat b.toNat :=
  toNat_foldl_mul tail positive w a b

/-! ## Reducing a whole product -/

/-- The product of two words as polynomials, without reduction, in a word of `v` bits. -/
def product (v : Nat) (a b : BitVec w) : BitVec v :=
  (List.range w).foldl (fun p i => p ^^^ (if b.getLsbD i then a.setWidth v <<< i else 0#v)) 0#v

section Product

variable {v : Nat}

/-- The unreduced product is linear in the left factor. -/
theorem product_linear_left (b : BitVec w) : Linear (product v · b) := by
  apply Linear.foldl_terms
  intro i
  cases b.getLsbD i
  · exact .zero
  · exact (Linear.shiftLeft i).comp .setWidth

theorem product_linear_right (a : BitVec w) : Linear (product v a) :=
  .foldl_terms (fun i => .select i _) _

theorem foldl_twoPow (term : Nat → BitVec v) {j : Nat} (inside : j < w) (count : Nat) :
    (List.range count).foldl
        (fun sum i => sum ^^^ (if (BitVec.twoPow w j).getLsbD i then term i else 0#v)) 0#v =
      if j < count then term j else 0#v := by
  induction count with
  | zero => rfl
  | succ count ih =>
    rw [List.range_succ, List.foldl_append, ih, List.foldl_cons, List.foldl_nil,
      BitVec.getLsbD_twoPow]
    rcases Nat.lt_trichotomy j count with below | rfl | above
    · simp [below, Nat.ne_of_lt below, Nat.lt_succ_of_lt below]
    · simp [inside]
    · have outside : ¬ j < count := by omega
      have outside' : ¬ j < count + 1 := by omega
      simp [outside, outside', Nat.ne_of_gt above]

/-- Unreduced powers of two multiply by adding exponents. -/
theorem product_twoPow (wide : w ≤ v) {i j : Nat} (first : i < w) (second : j < w) :
    product v (BitVec.twoPow w i) (BitVec.twoPow w j) = BitVec.twoPow v (i + j) := by
  rw [product, foldl_twoPow _ second, if_pos second, setWidth_twoPow wide first, BitVec.twoPow,
    BitVec.twoPow, ← BitVec.shiftLeft_add]

/-- A linear map that takes the powers of `x` to their residues reduces every product. -/
theorem reduce_product (wide : w ≤ v) {reduce : BitVec v → BitVec w} (linear : Linear reduce)
    (start : reduce (BitVec.twoPow v 0) = 1#w)
    (step : ∀ n : Fin (w + w - 2),
      reduce (BitVec.twoPow v (n + 1)) = double tail (reduce (BitVec.twoPow v n)))
    (a b : BitVec w) : reduce (product v a b) = mul tail a b := by
  have power : ∀ n < w + w - 1, reduce (BitVec.twoPow v n) = (double tail)^[n] 1#w := by
    intro n
    induction n with
    | zero => exact fun _ => start
    | succ n ih =>
      intro inside
      rw [step ⟨n, by omega⟩, ih (by omega), Function.iterate_succ_apply']
  refine Linear.eq_of_bits (linear.comp (product_linear_left b)) (mul_linear_left tail b) ?_ a
  intro i
  refine Linear.eq_of_bits (linear.comp (product_linear_right _)) (mul_linear_right tail _) ?_ b
  intro j
  rw [product_twoPow wide i.isLt j.isLt, mul_twoPow tail i.isLt j.isLt]
  exact power _ (by omega)

end Product

end Residue

end Lib
