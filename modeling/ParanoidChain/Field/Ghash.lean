import ParanoidChain.Lib.Residue
import Mathlib.FieldTheory.Finite.Basic

/-!
# GF(2^128) in the flat basis

The field of the constraint system (`noid_ivc_core/src/field/gf2_128.rs`) and of the native
permutation (`noid_core/src/hardware.rs`): 128-bit words as polynomials over GF(2) modulo
`x^128 + x^7 + x^2 + x + 1`. Both sources multiply without carries and reduce the 256-bit product,
each in its own way, to the same residue, and the squaring that spreads the bits agrees with both. That
the polynomial is irreducible is read off two powers: squaring 128 times is the identity, and
`x ^ 2 ^ 64 + x` is a unit.
-/

namespace ParanoidChain

open Lib

/-! ## The reductions -/

/-- `ghash_reduce`: the four limbs of a product, lowest first. -/
def ghashReduce (r0 r1 r2 r3 : BitVec 64) : BitVec 128 :=
  let s1Lo := r2 <<< 1
  let s1Hi := (r3 <<< 1) ||| (r2 >>> 63)
  let s2Lo := r2 <<< 2
  let s2Hi := (r3 <<< 2) ||| (r2 >>> 62)
  let s7Lo := r2 <<< 7
  let s7Hi := (r3 <<< 7) ||| (r2 >>> 57)
  let tLo := r2 ^^^ s1Lo ^^^ s2Lo ^^^ s7Lo
  let tHi := r3 ^^^ s1Hi ^^^ s2Hi ^^^ s7Hi
  let ov := (r3 >>> 63) ^^^ (r3 >>> 62) ^^^ (r3 >>> 57)
  let corr := ov ^^^ (ov <<< 1) ^^^ (ov <<< 2) ^^^ (ov <<< 7)
  (r1 ^^^ tHi) ++ (r0 ^^^ tLo ^^^ corr)

/-- `clmul_u128_by_87`. -/
def clmulU128By87 (a : BitVec 128) : BitVec 128 := a ^^^ (a <<< 1) ^^^ (a <<< 2) ^^^ (a <<< 7)

/-- `reduce_gcm_256`. -/
def reduceGcm256 (xHi xLo : BitVec 128) : BitVec 128 :=
  let x1Lo := (xHi.setWidth 64).setWidth 128
  let x1Hi := ((xHi >>> 64).setWidth 64).setWidth 128
  let v1 := clmulU128By87 x1Lo
  let v2 := clmulU128By87 x1Hi
  let v2Shift64 := v2 <<< 64
  let v2Overflow := v2 >>> 64
  let lo := xLo ^^^ v1 ^^^ v2Shift64
  let hi := v2Overflow
  let v3 := clmulU128By87 hi
  lo ^^^ v3

/-- `software::ghash_mul`, the product of `F128`. -/
def ghashMul (a b : BitVec 128) : BitVec 128 :=
  let u := Residue.product 256 a b
  ghashReduce (u.extractLsb' 0 64) (u.extractLsb' 64 64) (u.extractLsb' 128 64)
    (u.extractLsb' 192 64)

/-- A step of `expand_bits_u64_to_u128`: a shifted copy is laid over the word and masked. -/
def spread (count : Nat) (mask x : BitVec 128) : BitVec 128 := (x ||| (x <<< count)) &&& mask

/-- `expand_bits_u64_to_u128`: a zero between any two bits. -/
def expandBitsU64ToU128 (v : BitVec 64) : BitVec 128 :=
  let x := v.setWidth 128
  let x := spread 32 0x00000000FFFFFFFF00000000FFFFFFFF x
  let x := spread 16 0x0000FFFF0000FFFF0000FFFF0000FFFF x
  let x := spread 8 0x00FF00FF00FF00FF00FF00FF00FF00FF x
  let x := spread 4 0x0F0F0F0F0F0F0F0F0F0F0F0F0F0F0F0F x
  let x := spread 2 0x33333333333333333333333333333333 x
  spread 1 0x55555555555555555555555555555555 x

/-- `square_flat_u128`. -/
def squareFlatU128 (a : BitVec 128) : BitVec 128 :=
  let sLo := expandBitsU64ToU128 (a.setWidth 64)
  let sHi := expandBitsU64ToU128 ((a >>> 64).setWidth 64)
  reduceGcm256 sHi sLo

/-! ## One product -/

/-- The two parts of a word shifted across a limb boundary do not meet. -/
theorem shiftLeft_or_ushiftRight (x y : BitVec 64) {up down : Nat} (whole : up + down = 64) :
    x <<< up ||| y >>> down = x <<< up ^^^ y >>> down := by
  apply BitVec.eq_of_getLsbD_eq
  intro i inside
  simp only [BitVec.getLsbD_or, BitVec.getLsbD_xor, BitVec.getLsbD_shiftLeft,
    BitVec.getLsbD_ushiftRight]
  by_cases low : i < up
  · simp [low]
  · have beyond : y.getLsbD (down + i) = false := BitVec.getLsbD_of_ge y _ (by omega)
    simp [beyond]

theorem limbs_xor (hi lo hi' lo' : BitVec 64) :
    (hi ^^^ hi') ++ (lo ^^^ lo') = ((hi ++ lo) ^^^ (hi' ++ lo') : BitVec 128) :=
  (@BitVec.xor_append 64 64 hi hi' lo lo').symm

theorem ghashReduce_linear :
    Linear (fun u : BitVec 256 => ghashReduce (u.extractLsb' 0 64) (u.extractLsb' 64 64)
      (u.extractLsb' 128 64) (u.extractLsb' 192 64)) := by
  intro x y
  simp only [ghashReduce, shiftLeft_or_ushiftRight _ _ (show 1 + 63 = 64 from rfl),
    shiftLeft_or_ushiftRight _ _ (show 2 + 62 = 64 from rfl),
    shiftLeft_or_ushiftRight _ _ (show 7 + 57 = 64 from rfl)]
  simp only [BitVec.extractLsb'_xor, BitVec.shiftLeft_xor_distrib,
    BitVec.ushiftRight_xor_distrib]
  refine Eq.trans ?_ (limbs_xor ..)
  congr 1 <;> ac_rfl

theorem clmulU128By87_linear : Linear clmulU128By87 :=
  ((Linear.refl.xor (.shiftLeft 1)).xor (.shiftLeft 2)).xor (.shiftLeft 7)

/-- What the upper half of a product adds to the lower one. -/
def folded (xHi : BitVec 128) : BitVec 128 :=
  let high := clmulU128By87 (((xHi >>> 64).setWidth 64).setWidth 128)
  clmulU128By87 ((xHi.setWidth 64).setWidth 128) ^^^ high <<< 64 ^^^ clmulU128By87 (high >>> 64)

/-- The reduction of the native product adds a folded upper half. -/
theorem reduceGcm256_eq (xHi xLo : BitVec 128) : reduceGcm256 xHi xLo = xLo ^^^ folded xHi := by
  simp only [reduceGcm256, folded, BitVec.xor_assoc]

theorem folded_linear : Linear folded := by
  have high : Linear (fun x : BitVec 128 =>
      clmulU128By87 (((x >>> 64).setWidth 64).setWidth 128)) :=
    clmulU128By87_linear.comp (Linear.setWidth.comp (Linear.setWidth.comp (.ushiftRight 64)))
  have low : Linear (fun x : BitVec 128 => clmulU128By87 ((x.setWidth 64).setWidth 128)) :=
    clmulU128By87_linear.comp (Linear.setWidth.comp .setWidth)
  exact (low.xor ((Linear.shiftLeft 64).comp high)).xor
    (clmulU128By87_linear.comp ((Linear.ushiftRight 64).comp high))

/-- The product of the constraint field is the residue of the product: by linearity, powers are
enough. -/
theorem ghashMul_eq (a b : BitVec 128) : ghashMul a b = Residue.mul 0x87#128 a b := by
  refine Residue.reduce_product 0x87#128 (by decide) ghashReduce_linear ?_ ?_ a b
  · decide +kernel
  · decide +kernel

/-! ## Squares -/

/-- Where the shifted copy meets no bit of the word, laying it over is adding it. -/
theorem spread_eq {count : Nat} {support mask : BitVec 128}
    (apart : support &&& support <<< count &&& mask = 0#128) {x : BitVec 128}
    (inside : x &&& support = x) : spread count mask x = (x ^^^ x <<< count) &&& mask := by
  apply BitVec.eq_of_getLsbD_eq
  intro i bound
  have bits : ∀ k, x.getLsbD k = true → support.getLsbD k = true := by
    intro k set
    rw [← inside, BitVec.getLsbD_and, Bool.and_eq_true] at set
    exact set.2
  have never := congrArg (BitVec.getLsbD · i) apart
  simp only [BitVec.getLsbD_and, BitVec.getLsbD_shiftLeft, bound, decide_true, Bool.true_and,
    BitVec.getLsbD_zero] at never
  simp only [spread, BitVec.getLsbD_and, BitVec.getLsbD_or, BitVec.getLsbD_xor,
    BitVec.getLsbD_shiftLeft, bound, decide_true, Bool.true_and]
  have here := bits i
  have there := bits (i - count)
  revert here there never
  cases x.getLsbD i <;> cases x.getLsbD (i - count) <;> cases decide (i < count) <;>
    cases mask.getLsbD i <;> cases support.getLsbD i <;> cases support.getLsbD (i - count) <;> simp

theorem spread_inside (count : Nat) (mask x : BitVec 128) :
    spread count mask x &&& mask = spread count mask x := by
  rw [spread, BitVec.and_assoc, BitVec.and_self]

/-- A step of the spreading, as a linear map. -/
theorem spread_linear (count : Nat) (mask : BitVec 128) :
    Linear (fun x : BitVec 128 => (x ^^^ x <<< count) &&& mask) := by
  have masked : Linear (fun x : BitVec 128 => x &&& mask) := by
    intro x y
    apply BitVec.eq_of_getLsbD_eq
    intro i inside
    simp only [BitVec.getLsbD_and, BitVec.getLsbD_xor]
    exact Bool.and_xor_distrib_right ..
  exact masked.comp (Linear.refl.xor (.shiftLeft count))

theorem expandBitsU64ToU128_linear : Linear expandBitsU64ToU128 := by
  have start : ∀ v : BitVec 64, v.setWidth 128 &&& 0xFFFFFFFFFFFFFFFF#128 = v.setWidth 128 := by
    intro v
    apply BitVec.eq_of_toNat_eq
    have small : v.toNat < 2 ^ 64 := v.isLt
    have mask : (0xFFFFFFFFFFFFFFFF : Nat) = 2 ^ 64 - 1 := by norm_num
    simp only [BitVec.toNat_and, BitVec.toNat_setWidth, BitVec.toNat_ofNat]
    rw [Nat.mod_eq_of_lt (by omega), Nat.mod_eq_of_lt (by norm_num), mask,
      Nat.and_two_pow_sub_one_eq_mod, Nat.mod_eq_of_lt small]
  have steps : expandBitsU64ToU128 = fun v =>
      (fun x : BitVec 128 => (x ^^^ x <<< 1) &&& 0x55555555555555555555555555555555)
      ((fun x : BitVec 128 => (x ^^^ x <<< 2) &&& 0x33333333333333333333333333333333)
      ((fun x : BitVec 128 => (x ^^^ x <<< 4) &&& 0x0F0F0F0F0F0F0F0F0F0F0F0F0F0F0F0F)
      ((fun x : BitVec 128 => (x ^^^ x <<< 8) &&& 0x00FF00FF00FF00FF00FF00FF00FF00FF)
      ((fun x : BitVec 128 => (x ^^^ x <<< 16) &&& 0x0000FFFF0000FFFF0000FFFF0000FFFF)
      ((fun x : BitVec 128 => (x ^^^ x <<< 32) &&& 0x00000000FFFFFFFF00000000FFFFFFFF)
        (v.setWidth 128)))))) := by
    funext v
    simp only [expandBitsU64ToU128]
    rw [spread_eq (by decide) (spread_inside ..), spread_eq (by decide) (spread_inside ..),
      spread_eq (by decide) (spread_inside ..), spread_eq (by decide) (spread_inside ..),
      spread_eq (by decide) (spread_inside ..), spread_eq (by decide) (start v)]
  rw [steps]
  exact (spread_linear 1 _).comp ((spread_linear 2 _).comp ((spread_linear 4 _).comp
    ((spread_linear 8 _).comp ((spread_linear 16 _).comp ((spread_linear 32 _).comp .setWidth)))))

theorem squareFlatU128_linear : Linear squareFlatU128 := by
  have halves : squareFlatU128 = fun a : BitVec 128 =>
      expandBitsU64ToU128 (a.setWidth 64) ^^^
        folded (expandBitsU64ToU128 ((a >>> 64).setWidth 64)) :=
    funext fun _ => reduceGcm256_eq ..
  rw [halves]
  exact (expandBitsU64ToU128_linear.comp .setWidth).xor (folded_linear.comp
    (expandBitsU64ToU128_linear.comp (Linear.setWidth.comp (.ushiftRight 64))))

/-- Squaring is linear in characteristic two. -/
theorem square_linear : Linear (fun a => ghashMul a a) := by
  intro a b
  beta_reduce
  rw [ghashMul_eq, ghashMul_eq, ghashMul_eq, Residue.xor_mul, Residue.mul_xor, Residue.mul_xor,
    Residue.mul_comm _ b a, BitVec.xor_assoc, ← BitVec.xor_assoc (Residue.mul _ a b),
    BitVec.xor_self, BitVec.zero_xor]

/-- The native squaring is the square. -/
theorem squareFlatU128_eq (a : BitVec 128) : squareFlatU128 a = ghashMul a a := by
  refine squareFlatU128_linear.eq_of_bits square_linear ?_ a
  intro i
  simp only [ghashMul, Residue.product_twoPow (show 128 ≤ 256 by decide) i.isLt i.isLt]
  revert i
  decide +kernel

/-! ## The ring -/

/-- `F128`: bit `i` is the coefficient of `x ^ i`. -/
@[ext]
structure F128 where
  bits : BitVec 128
  deriving DecidableEq

namespace F128

instance : Zero F128 := ⟨⟨0#128⟩⟩

instance : One F128 := ⟨⟨1#128⟩⟩

instance : Add F128 := ⟨fun a b => ⟨a.bits ^^^ b.bits⟩⟩

instance : Mul F128 := ⟨fun a b => ⟨ghashMul a.bits b.bits⟩⟩

instance : Neg F128 := ⟨id⟩

@[simp]
theorem bits_zero : (0 : F128).bits = 0#128 := rfl

@[simp]
theorem bits_one : (1 : F128).bits = 1#128 := rfl

@[simp]
theorem bits_add (a b : F128) : (a + b).bits = a.bits ^^^ b.bits := rfl

/-- The product of the field, in words. -/
theorem bits_mul (a b : F128) : (a * b).bits = Residue.mul 0x87#128 a.bits b.bits :=
  ghashMul_eq ..

instance : CommRing F128 where
  add_assoc _ _ _ := F128.ext (BitVec.xor_assoc ..)
  zero_add _ := F128.ext BitVec.zero_xor
  add_zero _ := F128.ext BitVec.xor_zero
  add_comm _ _ := F128.ext (BitVec.xor_comm ..)
  neg_add_cancel _ := F128.ext BitVec.xor_self
  left_distrib a b c := by
    apply F128.ext
    rw [bits_mul, bits_add, Residue.mul_xor, bits_add, bits_mul, bits_mul]
  right_distrib a b c := by
    apply F128.ext
    rw [bits_mul, bits_add, Residue.xor_mul, bits_add, bits_mul, bits_mul]
  zero_mul a := by
    apply F128.ext
    rw [bits_mul, bits_zero]
    exact (Residue.mul_linear_left 0x87#128 a.bits).map_zero
  mul_zero a := by
    apply F128.ext
    rw [bits_mul, bits_zero]
    exact (Residue.mul_linear_right 0x87#128 a.bits).map_zero
  mul_assoc a b c := by
    apply F128.ext
    rw [bits_mul, bits_mul, bits_mul, bits_mul, Residue.mul_assoc]
  one_mul a := by
    apply F128.ext
    rw [bits_mul, bits_one, Residue.one_mul]
  mul_one a := by
    apply F128.ext
    rw [bits_mul, bits_one, Residue.mul_one]
  mul_comm a b := by
    apply F128.ext
    rw [bits_mul, bits_mul, Residue.mul_comm]
  nsmul := nsmulRec
  zsmul := zsmulRec

instance : Nontrivial F128 := ⟨0, 1, by decide⟩

instance : CharP F128 2 :=
  CharTwo.of_one_ne_zero_of_two_eq_zero one_ne_zero (by
    rw [← one_add_one_eq_two]
    exact F128.ext BitVec.xor_self)

/-! ## The field -/

/-- A matrix over GF(2) applied to a word: the columns of the set bits are added. -/
def applyMatrix : List (BitVec 128) → BitVec 128 → BitVec 128
  | [], _ => 0#128
  | column :: rest, v => (if v.getLsbD 0 then column else 0#128) ^^^ applyMatrix rest (v >>> 1)

theorem applyMatrix_linear (matrix : List (BitVec 128)) : Linear (applyMatrix matrix) := by
  induction matrix with
  | nil => exact .zero
  | cons column rest ih => exact (Linear.select 0 column).xor (ih.comp (.ushiftRight 1))

/-- The powers of two are the powers of `x`. -/
theorem twoPow_eq {i : Nat} (inside : i < 128) :
    (⟨BitVec.twoPow 128 i⟩ : F128) = ⟨BitVec.twoPow 128 1⟩ ^ i := by
  induction i with
  | zero => rw [pow_zero, BitVec.twoPow_zero]; rfl
  | succ i ih =>
    rw [pow_succ, ← ih (by omega)]
    apply F128.ext
    rw [bits_mul, Residue.mul_twoPow _ (by omega) (by omega), Residue.iterate_double_one _ inside]

/-- Iterating the Frobenius map is iterating the native squaring. -/
theorem bits_iterateFrobenius (n : Nat) (a : F128) :
    (iterateFrobenius F128 2 n a).bits = squareFlatU128^[n] a.bits := by
  induction n generalizing a with
  | zero => simp
  | succ n ih =>
    rw [iterateFrobenius_add_apply, ih, iterateFrobenius_one_apply, Function.iterate_succ_apply,
      squareFlatU128_eq, pow_two]
    rfl

/-- Squaring 128 times is the identity: it is a ring homomorphism that fixes `x`. -/
theorem iterateFrobenius_eq (a : F128) : iterateFrobenius F128 2 128 a = a := by
  have fixed : iterateFrobenius F128 2 128 ⟨BitVec.twoPow 128 1⟩ = ⟨BitVec.twoPow 128 1⟩ := by
    apply F128.ext
    rw [bits_iterateFrobenius]
    decide +kernel
  have every : ∀ word : BitVec 128, iterateFrobenius F128 2 128 ⟨word⟩ = ⟨word⟩ := by
    intro word
    induction word using xor_induction with
    | zero => exact map_zero _
    | bit i => rw [twoPow_eq i.isLt, map_pow, fixed]
    | xor x y first second =>
      have sum : (⟨x ^^^ y⟩ : F128) = ⟨x⟩ + ⟨y⟩ := rfl
      rw [sum, map_add, first, second]
  exact every a.bits

/-- The degree of a field of characteristic two divides the order of its Frobenius. -/
theorem degree_dvd {K : Type*} [Field K] [Fintype K] {degree n : Nat}
    (card : Fintype.card K = 2 ^ degree) (fixed : ∀ y : K, y ^ 2 ^ n = y) : degree ∣ n := by
  have divides : 2 ^ degree - 1 ∣ 2 ^ n - 1 := by
    rw [← card, ← FiniteField.forall_pow_eq_one_iff]
    intro y
    apply mul_right_cancel (b := y)
    rw [← pow_succ, Nat.sub_add_cancel Nat.one_le_two_pow, one_mul]
    exact Units.ext (fixed y)
  have same := Nat.gcd_eq_left divides
  rw [Nat.pow_sub_one_gcd_pow_sub_one] at same
  have exponent : 2 ^ degree.gcd n = 2 ^ degree := by
    have := @Nat.one_le_two_pow (degree.gcd n)
    have := @Nat.one_le_two_pow degree
    omega
  exact Nat.gcd_eq_left_iff_dvd.mp (Nat.pow_right_injective le_rfl exponent)

/-- `x ^ 2 ^ 64 + x` has an inverse: no factor of the modulus has a degree that divides 64. -/
theorem isUnit_root :
    IsUnit (iterateFrobenius F128 2 64 ⟨BitVec.twoPow 128 1⟩ + ⟨BitVec.twoPow 128 1⟩) := by
  refine IsUnit.of_mul_eq_one ⟨0x9e4af928ddbc838a41a8cafd2c95b018⟩ (F128.ext ?_)
  rw [bits_mul, bits_add, bits_iterateFrobenius]
  decide +kernel

/-- The elements, counted by their words. -/
def equivFin : F128 ≃ Fin (2 ^ 128) where
  toFun a := a.bits.toFin
  invFun i := ⟨⟨i⟩⟩

instance : Finite F128 := .of_equiv _ equivFin.symm

/-- A maximal ideal leaves a field of degree 128, so it is zero. -/
theorem isUnit_of_ne_zero {a : F128} (nonzero : a ≠ 0) : IsUnit a := by
  by_contra stuck
  obtain ⟨ideal, maximal, member⟩ := exists_max_ideal_of_mem_nonunits stuck
  let _ := Ideal.Quotient.field ideal
  have := Finite.of_surjective _ (Ideal.Quotient.mk_surjective (I := ideal))
  let _ := Fintype.ofFinite (F128 ⧸ ideal)
  have cards := Submodule.card_eq_card_quotient_mul_card ideal
  rw [Nat.card_congr equivFin, Nat.card_fin, Nat.card_eq_fintype_card (α := F128 ⧸ ideal)] at cards
  obtain ⟨degree, _, card⟩ := (Nat.dvd_prime_pow Nat.prime_two).mp (Dvd.intro_left _ cards.symm)
  have fixed : ∀ y : F128 ⧸ ideal, y ^ 2 ^ 128 = y := by
    intro y
    obtain ⟨b, rfl⟩ := Ideal.Quotient.mk_surjective y
    rw [← map_pow, ← iterateFrobenius_def, iterateFrobenius_eq]
  obtain ⟨exponent, small, rfl⟩ := (Nat.dvd_prime_pow Nat.prime_two).mp
    (show degree ∣ 2 ^ 7 from degree_dvd card fixed)
  rcases Nat.lt_or_eq_of_le small with below | rfl
  · -- The quotient would lie in the field of degree 64, where the unit vanishes.
    obtain ⟨times, whole⟩ : 2 ^ exponent ∣ 64 := Nat.pow_dvd_pow 2 (Nat.le_of_lt_succ below)
    refine (isUnit_root.map (Ideal.Quotient.mk ideal)).ne_zero ?_
    rw [map_add, iterateFrobenius_def, map_pow, whole, pow_mul, ← card, FiniteField.pow_card_pow,
      ← map_add, CharTwo.add_self_eq_zero, map_zero]
  · have single : Nat.card ideal = 1 := by
      rw [card] at cards
      omega
    have := (Nat.card_eq_one_iff_unique.mp single).1
    exact nonzero (congrArg Subtype.val (Subsingleton.elim (⟨a, member⟩ : ideal) 0))

/-- `F128::inv`. -/
def inv (a : F128) : F128 :=
  ((List.range 127).foldl (fun (r, cur) _ => (r * cur, cur * cur)) (1, a * a)).1

/-- The conjugates of an element, one squaring after another. -/
def conjugate (a : F128) (n : Nat) : F128 := iterateFrobenius F128 2 n a

theorem conjugate_zero (a : F128) : conjugate a 0 = a := by simp [conjugate]

/-- Each conjugate is the square of the one before. -/
theorem conjugate_succ (a : F128) (n : Nat) :
    conjugate a (n + 1) = conjugate a n * conjugate a n := by
  rw [conjugate, Nat.add_comm, iterateFrobenius_add_apply, iterateFrobenius_one_apply, pow_two]
  rfl

/-- The addition chain of the inverse multiplies all conjugates but the first. -/
theorem inv_eq_prod (a : F128) : inv a = ∏ k ∈ Finset.range 127, conjugate a (k + 1) := by
  have steps : ∀ n, (List.range n).foldl
      (fun ((r, cur) : F128 × F128) (_ : Nat) => (r * cur, cur * cur)) (1, a * a) =
        (∏ k ∈ Finset.range n, conjugate a (k + 1), conjugate a (n + 1)) := by
    intro n
    induction n with
    | zero => simp [conjugate_succ, conjugate_zero]
    | succ n ih =>
      rw [List.range_succ, List.foldl_append, ih, Finset.prod_range_succ, conjugate_succ a (n + 1)]
      rfl
  rw [inv, steps]

/-- The norm times the element is the next conjugate. -/
theorem mul_prod_conjugate (a : F128) (n : Nat) :
    a * ∏ k ∈ Finset.range n, conjugate a k = conjugate a n := by
  induction n with
  | zero => simp [conjugate_zero]
  | succ n ih => rw [Finset.prod_range_succ, ← mul_assoc, ih, conjugate_succ]

/-- So it inverts every element but zero. -/
theorem mul_inv_of_ne_zero {a : F128} (nonzero : a ≠ 0) : a * inv a = 1 := by
  apply (isUnit_of_ne_zero nonzero).mul_left_cancel
  have norm : a * inv a = ∏ k ∈ Finset.range 128, conjugate a k := by
    rw [inv_eq_prod, Finset.prod_range_succ' _ 127, conjugate_zero, mul_comm]
  rw [norm, mul_prod_conjugate, mul_one]
  exact iterateFrobenius_eq a

theorem inv_zero : inv 0 = 0 := by
  rw [inv_eq_prod]
  exact Finset.prod_eq_zero (Finset.mem_range.mpr (show 0 < 127 by decide)) (map_zero _)

instance : Field F128 where
  inv := inv
  mul_inv_cancel _ := mul_inv_of_ne_zero
  inv_zero := inv_zero
  nnqsmul := _
  qsmul := _

end F128

end ParanoidChain
