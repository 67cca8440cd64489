import ParanoidChain.Field.Hardware
import ParanoidChain.Laws.Field.Blocks
import ParanoidChain.Lib.BitPolynomial

/-!
# The flat basis is the tower field

The nibble tables apply their matrix, the three products are the product of bit polynomials modulo
the GCM polynomial, and the conversion matrices are inverse to each other and multiplicative. The
last is shown level by level: the conversion is a ring homomorphism on `Block8`, and at every further
level it sends the upper half to its own image times the image of `X`, which satisfies the equation of
`X`.
-/

namespace ParanoidChain.Hardware

open Lib

/-! ## Matrices -/

section

variable (matrix : List (BitVec 128))
include matrix

/-- A table entry is the sum of the rows at the set bits of its nibble. -/
theorem nibbleEntry_eq (chunk : Nat) (nib : BitVec 4) :
    nibbleEntry matrix chunk nib =
      (if nib.getLsbD 0 then matrix.getD (chunk * 4) 0#128 else 0#128) ^^^
        ((if nib.getLsbD 1 then matrix.getD (chunk * 4 + 1) 0#128 else 0#128) ^^^
        ((if nib.getLsbD 2 then matrix.getD (chunk * 4 + 2) 0#128 else 0#128) ^^^
        (if nib.getLsbD 3 then matrix.getD (chunk * 4 + 3) 0#128 else 0#128))) := by
  have tests : ∀ nib : BitVec 4, (nib &&& 1#4 != 0#4) = nib.getLsbD 0 ∧
      (nib &&& 2#4 != 0#4) = nib.getLsbD 1 ∧ (nib &&& 4#4 != 0#4) = nib.getLsbD 2 ∧
      (nib &&& 8#4 != 0#4) = nib.getLsbD 3 := by
    decide
  obtain ⟨t0, t1, t2, t3⟩ := tests nib
  simp only [nibbleEntry, t0, t1, t2, t3]
  cases nib.getLsbD 0 <;> cases nib.getLsbD 1 <;> cases nib.getLsbD 2 <;>
    cases nib.getLsbD 3 <;> simp [BitVec.xor_assoc]

/-- The entries of a chunk stand together. -/
theorem buildNibbleTable_eq :
    buildNibbleTable matrix =
      (List.range (32 * 16)).map fun k => nibbleEntry matrix (k / 16) (BitVec.ofNat 4 (k % 16)) := by
  have general : ∀ chunks, ((List.range chunks).flatMap fun chunk =>
      (List.range 16).map fun nib => nibbleEntry matrix chunk (BitVec.ofNat 4 nib)) =
      (List.range (chunks * 16)).map fun k =>
        nibbleEntry matrix (k / 16) (BitVec.ofNat 4 (k % 16)) := by
    intro chunks
    induction chunks with
    | zero => rfl
    | succ chunks ih =>
      rw [List.range_succ (n := chunks), List.flatMap_append, ih, Nat.succ_mul, List.range_add, List.map_append,
        List.map_map, List.flatMap_singleton]
      congr 1
      apply List.map_congr_left
      intro nib member
      have small := List.mem_range.mp member
      have quotient : (chunks * 16 + nib) / 16 = chunks := by omega
      have remainder : (chunks * 16 + nib) % 16 = nib := by omega
      simp only [Function.comp_apply, quotient, remainder]
  exact general 32

/-- The table is indexed by the chunk and the nibble. -/
theorem buildNibbleTable_getD {chunk : Nat} (inside : chunk < 32) (v : BitVec 128) :
    (buildNibbleTable matrix).getD (chunk * 16 + (v &&& 0xF#128).toNat) 0#128 =
      nibbleEntry matrix chunk (v.setWidth 4) := by
  have masked : (v &&& 0xF#128).toNat = v.toNat % 16 := by
    rw [BitVec.toNat_and]
    exact Nat.and_two_pow_sub_one_eq_mod v.toNat 4
  have small : v.toNat % 16 < 16 := Nat.mod_lt _ (by decide)
  have quotient : (chunk * 16 + v.toNat % 16) / 16 = chunk := by omega
  have remainder : (chunk * 16 + v.toNat % 16) % 16 = v.toNat % 16 := by omega
  have bound : chunk * 16 + v.toNat % 16 < 32 * 16 := by omega
  have nibble : BitVec.ofNat 4 (v.toNat % 16) = v.setWidth 4 := by
    apply BitVec.eq_of_toNat_eq
    simp
  rw [buildNibbleTable_eq, masked, List.getD_eq_getElem?_getD, List.getElem?_map,
    List.getElem?_range bound, Option.map_some, Option.getD_some, quotient, remainder, nibble]

/-- One column of the matrix. -/
theorem applyMatrix_column (v : BitVec 128) :
    F128.applyMatrix matrix v =
      (if v.getLsbD 0 then matrix.getD 0 0#128 else 0#128) ^^^
        F128.applyMatrix (matrix.drop 1) (v >>> 1) := by
  cases matrix with
  | nil => simp [F128.applyMatrix]
  | cons column rest => simp [F128.applyMatrix]

/-- Four columns at once. -/
theorem applyMatrix_chunk (chunk : Nat) (v : BitVec 128) :
    F128.applyMatrix (matrix.drop (chunk * 4)) v =
      nibbleEntry matrix chunk (v.setWidth 4) ^^^
        F128.applyMatrix (matrix.drop ((chunk + 1) * 4)) (v >>> 4) := by
  have column : ∀ skipped, (matrix.drop skipped).getD 0 0#128 = matrix.getD skipped 0#128 := by
    intro skipped
    simp [List.getD_eq_getElem?_getD]
  rw [applyMatrix_column, applyMatrix_column (List.drop 1 _), applyMatrix_column (List.drop 1 _),
    applyMatrix_column (List.drop 1 _), nibbleEntry_eq]
  simp only [List.drop_drop, column, ← BitVec.shiftRight_add, BitVec.getLsbD_ushiftRight,
    BitVec.getLsbD_setWidth, BitVec.xor_assoc, Nat.succ_mul]
  simp

end

/-- The table computes the matrix, four columns at a time. -/
theorem applyMatrix_eq {matrix : List (BitVec 128)} (length : matrix.length = 128)
    (v : BitVec 128) : applyMatrix matrix v = F128.applyMatrix matrix v := by
  have loop : ∀ chunks ≤ 32,
      (List.range chunks).foldl (fun state chunk =>
        (state.1 ^^^ (buildNibbleTable matrix).getD (chunk * 16 + (state.2 &&& 0xF#128).toNat) 0#128,
          state.2 >>> 4)) (0#128, v) =
      (F128.applyMatrix matrix v ^^^
        F128.applyMatrix (matrix.drop (chunks * 4)) (v >>> (chunks * 4)), v >>> (chunks * 4)) := by
    intro chunks
    induction chunks with
    | zero => intro _; simp
    | succ chunks ih =>
      intro inside
      rw [List.range_succ, List.foldl_append, ih (by omega), List.foldl_cons, List.foldl_nil]
      dsimp only
      rw [buildNibbleTable_getD matrix (by omega), applyMatrix_chunk matrix chunks,
        ← BitVec.shiftRight_add]
      rw [Nat.succ_mul]
      congr 1
      generalize nibbleEntry matrix chunks _ = entry
      rw [BitVec.xor_assoc, BitVec.xor_comm entry, BitVec.xor_assoc, BitVec.xor_self,
        BitVec.xor_zero]
  refine (congrArg Prod.fst (loop 32 le_rfl)).trans ?_
  dsimp only
  rw [List.drop_of_length_le (by omega)]
  exact BitVec.xor_zero

theorem towerToFlatU128_eq (v : BitVec 128) :
    towerToFlatU128 v = F128.applyMatrix towerToFlat v := applyMatrix_eq rfl v

theorem flatToTowerU128_eq (v : BitVec 128) :
    flatToTowerU128 v = F128.applyMatrix flatToTower v := applyMatrix_eq rfl v

theorem towerToFlatU128_linear : Linear towerToFlatU128 := by
  intro x y
  simp only [towerToFlatU128_eq]
  exact F128.applyMatrix_linear _ x y

theorem flatToTowerU128_linear : Linear flatToTowerU128 := by
  intro x y
  simp only [flatToTowerU128_eq]
  exact F128.applyMatrix_linear _ x y

/-- A matrix evaluated on numbers. -/
def applyNat : List Nat → Nat → Nat
  | [], _ => 0
  | column :: rest, v => cond (Nat.beq (v % 2) 1) column 0 ^^^ applyNat rest (v / 2)

/-- The matrix on numbers, for evaluation in the kernel. -/
theorem toNat_applyMatrix (matrix : List (BitVec 128)) (v : BitVec 128) :
    (F128.applyMatrix matrix v).toNat = applyNat (matrix.map BitVec.toNat) v.toNat := by
  induction matrix generalizing v with
  | nil => rfl
  | cons column rest ih =>
    rw [F128.applyMatrix, BitVec.toNat_xor, ih, List.map_cons, applyNat, beq_mod_two,
      BitVec.toNat_ushiftRight, Nat.shiftRight_one]
    cases v.getLsbD 0 <;> rfl

/-- A basis vector picks its column. -/
theorem applyMatrix_twoPow {matrix : List (BitVec 128)} {i : Nat} (inside : i < 128) :
    F128.applyMatrix matrix (BitVec.twoPow 128 i) = matrix.getD i 0#128 := by
  induction matrix generalizing i with
  | nil => simp [F128.applyMatrix]
  | cons column rest ih =>
    rw [F128.applyMatrix, BitVec.getLsbD_twoPow]
    cases i with
    | zero =>
      have gone : BitVec.twoPow 128 0 >>> 1 = 0#128 := by decide
      rw [gone, (F128.applyMatrix_linear rest).map_zero]
      simp
    | succ i =>
      have lowered : BitVec.twoPow 128 (i + 1) >>> 1 = BitVec.twoPow 128 i := by
        apply BitVec.eq_of_getLsbD_eq
        intro k bound
        simp only [BitVec.getLsbD_ushiftRight, BitVec.getLsbD_twoPow]
        simp [inside, show i < 128 by omega, Nat.add_comm 1]
      rw [lowered, ih (by omega)]
      simp

/-- The two matrices are inverse: it is enough to multiply the columns. -/
theorem flatToTowerU128_towerToFlatU128 (v : BitVec 128) :
    flatToTowerU128 (towerToFlatU128 v) = v := by
  refine Linear.eq_of_bits (flatToTowerU128_linear.comp towerToFlatU128_linear) .refl ?_ v
  intro i
  have table : ∀ i : Fin 128, applyNat (flatToTower.map BitVec.toNat)
      (towerToFlat.getD i 0#128).toNat = 2 ^ i.val := by
    decide +kernel
  rw [towerToFlatU128_eq, applyMatrix_twoPow i.isLt, flatToTowerU128_eq]
  apply BitVec.eq_of_toNat_eq
  rw [toNat_applyMatrix, table i, BitVec.toNat_twoPow,
    Nat.mod_eq_of_lt (Nat.pow_lt_pow_right (by decide) i.isLt)]

/-- A one-sided inverse on a finite set is two-sided. -/
theorem towerToFlatU128_flatToTowerU128 (v : BitVec 128) :
    towerToFlatU128 (flatToTowerU128 v) = v := by
  have finite : Finite (BitVec 128) :=
    Finite.of_injective BitVec.toFin (fun _ _ => BitVec.eq_of_toFin_eq)
  have injective : Function.Injective towerToFlatU128 :=
    Function.LeftInverse.injective flatToTowerU128_towerToFlatU128
  obtain ⟨u, rfl⟩ := Finite.surjective_of_injective injective v
  rw [flatToTowerU128_towerToFlatU128]

/-! ## The products of two words -/

/-- A product of words in the loop of the software path. -/
theorem clmulLoop_eq (a res b : BitVec 128) :
    clmulLoop a res b = res ^^^ Residue.product 128 a b := by
  fun_induction clmulLoop a res b with
  | case1 res =>
    rw [(Residue.product_linear_right a).map_zero, BitVec.xor_zero]
  | case2 res b nonzero ih =>
    obtain ⟨i, inside, -, lowest⟩ := exists_lowestBit_eq nonzero
    have term : Residue.product 128 a (BitVec.twoPow 128 i) = a * BitVec.twoPow 128 i := by
      rw [Residue.product, Residue.foldl_twoPow _ inside, if_pos inside, BitVec.setWidth_eq,
        BitVec.mul_twoPow_eq_shiftLeft]
    have parts := Residue.product_linear_right (v := 128) a (b ^^^ lowestBit b) (lowestBit b)
    rw [BitVec.xor_assoc, BitVec.xor_self, BitVec.xor_zero] at parts
    rw [ih, parts, lowest, term]
    ac_rfl

/-- The word as an element of the field. -/
def up (word : BitVec 64) : F128 := ⟨word.setWidth 128⟩

/-- `x^64`. -/
def x64 : F128 := ⟨BitVec.twoPow 128 64⟩

theorem up_xor (a b : BitVec 64) : up (a ^^^ b) = up a + up b :=
  congrArg F128.mk BitVec.setWidth_xor

theorem mk_xor (a b : BitVec 128) : (⟨a ^^^ b⟩ : F128) = ⟨a⟩ + ⟨b⟩ := rfl

/-- The product of two half words needs no reduction. -/
theorem carrylessMultiply_eq (a b : BitVec 64) : (⟨carrylessMultiply a b⟩ : F128) = up a * up b := by
  apply F128.ext
  rw [F128.bits_mul]
  refine Linear.eq_of_bits (Residue.product_linear_left b)
    ((Residue.mul_linear_left 0x87#128 _).comp .setWidth) ?_ a
  intro i
  refine Linear.eq_of_bits (Residue.product_linear_right _)
    ((Residue.mul_linear_right 0x87#128 _).comp .setWidth) ?_ b
  intro j
  rw [Residue.product_twoPow (by decide) i.isLt j.isLt, setWidth_twoPow (by decide) i.isLt,
    setWidth_twoPow (by decide) j.isLt, Residue.mul_twoPow _ (by omega) (by omega),
    Residue.iterate_double_one _ (by omega)]

/-- The portable loop over the set bits is the carry-less product. -/
theorem clmul64x64_eq (a b : BitVec 64) : clmul64x64 a b = carrylessMultiply a b := by
  rw [clmul64x64, clmulLoop_eq, BitVec.zero_xor]
  refine Linear.eq_of_bits ((Residue.product_linear_left _).comp .setWidth)
    (Residue.product_linear_left b) ?_ a
  intro i
  refine Linear.eq_of_bits ((Residue.product_linear_right _).comp .setWidth)
    (Residue.product_linear_right _) ?_ b
  intro j
  rw [setWidth_twoPow (by decide) i.isLt, setWidth_twoPow (by decide) j.isLt,
    Residue.product_twoPow (by decide) (by omega) (by omega),
    Residue.product_twoPow (by decide) i.isLt j.isLt]

/-! ## The products of the backends -/

/-- Multiplying by `x ^ 64` doubles 64 times. -/
theorem mul_x64_bits (a : BitVec 128) :
    ((⟨a⟩ : F128) * x64).bits = (Residue.double 0x87#128)^[64] a := by
  have commute := Function.Semiconj.iterate_right
    (show Function.Semiconj (Residue.mul 0x87#128 a) _ _ from
      (Residue.mul_double 0x87#128 a)) 64
  rw [F128.bits_mul, x64, ← Residue.iterate_double_one 0x87#128 (by decide : 64 < 128),
    commute.eq, Residue.mul_one]

/-- A word of 64 bits, moved up. -/
theorem up_mul_x64 (word : BitVec 64) : up word * x64 = ⟨word ++ 0#64⟩ := by
  apply F128.ext
  rw [up, mul_x64_bits]
  have moved : Linear (fun word : BitVec 64 => word ++ 0#64) := by
    intro x y
    exact (congrArg (_ ++ ·) BitVec.xor_self.symm).trans (limbs_xor ..)
  refine Linear.eq_of_bits (((Residue.double_linear _).iterate 64).comp .setWidth) moved ?_ word
  intro i
  have appended : BitVec.twoPow 64 i ++ 0#64 = BitVec.twoPow 128 (64 + i) := by
    apply BitVec.eq_of_getLsbD_eq
    intro k inside
    simp only [BitVec.getLsbD_append, BitVec.getLsbD_twoPow]
    by_cases low : k < 64
    · simp [low, show ¬ 64 + i.val = k by omega]
    · have same : (64 + i.val = k) = (i.val = k - 64) := by
        simp only [eq_iff_iff]
        omega
      simp [low, same, show 64 + i.val < 128 by omega]
  have small : i.val < 128 := by omega
  rw [setWidth_twoPow (by decide) i.isLt, ← Residue.iterate_double_one 0x87#128 small,
    ← Function.iterate_add_apply, Residue.iterate_double_one _ (by omega), appended]

/-- A word is its lower half and `x ^ 64` times its upper half. -/
theorem halves_eq (a : BitVec 128) :
    (⟨a⟩ : F128) = up (a.setWidth 64) + up ((a >>> 64).setWidth 64) * x64 := by
  rw [up_mul_x64]
  apply F128.ext
  rw [F128.bits_add, up]
  apply BitVec.eq_of_getLsbD_eq
  intro i inside
  simp only [BitVec.getLsbD_xor, BitVec.getLsbD_append, BitVec.getLsbD_setWidth,
    BitVec.getLsbD_ushiftRight, inside, decide_true, Bool.true_and]
  by_cases low : i < 64
  · simp [low]
  · simp [low, show i - 64 < 64 by omega, show 64 + (i - 64) = i by omega]

theorem shiftLeft_eq_append (a : BitVec 128) : a <<< 64 = a.setWidth 64 ++ 0#64 := by
  apply BitVec.eq_of_getLsbD_eq
  intro i inside
  simp only [BitVec.getLsbD_shiftLeft, BitVec.getLsbD_append, BitVec.getLsbD_setWidth]
  by_cases low : i < 64
  · simp [low]
  · simp [low, inside, show i - 64 < 64 by omega]

theorem up_high (a : BitVec 128) : up ((a >>> 64).setWidth 64) = ⟨a >>> 64⟩ := by
  apply F128.ext
  apply BitVec.eq_of_getLsbD_eq
  intro i inside
  simp only [up, BitVec.getLsbD_setWidth, BitVec.getLsbD_ushiftRight, inside, decide_true,
    Bool.true_and]
  by_cases low : i < 64
  · simp [low]
  · simp [low, BitVec.getLsbD_of_ge a (64 + i) (by omega)]

/-- A word shifted over the limb boundary is its product with `x^64`. -/
theorem shifted_eq (a : BitVec 128) :
    (⟨a <<< 64⟩ : F128) + ⟨a >>> 64⟩ * (x64 * x64) = ⟨a⟩ * x64 := by
  rw [shiftLeft_eq_append, ← up_mul_x64, ← up_high, ← mul_assoc, ← add_mul, ← halves_eq]

/-- The tail of the modulus is `x ^ 128`. -/
theorem up_tail : up 0x87#64 = x64 * x64 := by
  apply F128.ext
  rw [x64, ← x64, mul_x64_bits]
  decide +kernel

/-- The reduction of the source in the field: the upper half weighs `x^128`. -/
theorem reduceGcm256_eq_add (xHi xLo : BitVec 128) :
    (⟨reduceGcm256 xHi xLo⟩ : F128) = ⟨xLo⟩ + ⟨xHi⟩ * (x64 * x64) := by
  rw [reduceGcm256_eq, mk_xor, ← up_tail]
  congr 1
  apply F128.ext
  rw [F128.bits_mul]
  refine Linear.eq_of_bits folded_linear (Residue.mul_linear_left 0x87#128 _) ?_ xHi
  decide +kernel

/-- Karatsuba's identity in characteristic two. -/
theorem karatsuba_sum {R : Type} [CommRing R] [CharP R 2] (a0 a1 b0 b1 c : R) :
    a0 * b0 + a1 * b1 * (c * c) + ((a0 + a1) * (b0 + b1) + a0 * b0 + a1 * b1) * c =
      (a0 + a1 * c) * (b0 + b1 * c) := by
  linear_combination (a0 * b0 + a1 * b1) * c * (CharTwo.two_eq_zero : (2 : R) = 0)

/-- Karatsuba with any correct product of halves multiplies in the field. -/
theorem karatsuba_eq {clmul : BitVec 64 → BitVec 64 → BitVec 128}
    (product : ∀ a b, (⟨clmul a b⟩ : F128) = up a * up b) (a b : BitVec 128) :
    (⟨karatsuba clmul a b⟩ : F128) = ⟨a⟩ * ⟨b⟩ := by
  rw [halves_eq a, halves_eq b, ← karatsuba_sum, karatsuba, reduceGcm256_eq_add]
  generalize a.setWidth 64 = aLo
  generalize (a >>> 64).setWidth 64 = aHi
  generalize b.setWidth 64 = bLo
  generalize (b >>> 64).setWidth 64 = bHi
  have middle : (⟨clmul (aLo ^^^ aHi) (bLo ^^^ bHi) ^^^ clmul aLo bLo ^^^ clmul aHi bHi⟩ : F128) =
      (up aLo + up aHi) * (up bLo + up bHi) + up aLo * up bLo + up aHi * up bHi := by
    rw [mk_xor, mk_xor, product, product, product, up_xor, up_xor]
  rw [← middle, ← product, ← product]
  generalize clmul (aLo ^^^ aHi) (bLo ^^^ bHi) ^^^ clmul aLo bLo ^^^ clmul aHi bHi = mid
  rw [← shifted_eq mid, mk_xor, mk_xor, add_mul, add_add_add_comm]

/-- One stage of the fold: the term above is multiplied by `x^64` and added. -/
theorem fold_stage (t t' : BitVec 128) :
    (⟨t ^^^ (t'.setWidth 64 ++ 0#64) ^^^
      carrylessMultiply ((t' >>> 64).setWidth 64) 0x87#64⟩ : F128) = ⟨t⟩ + ⟨t'⟩ * x64 := by
  rw [mk_xor, mk_xor, carrylessMultiply_eq, up_tail, ← up_mul_x64, halves_eq t', add_mul,
    mul_assoc, add_assoc]

/-- So does the folding of the other architecture. -/
theorem hornerFold_eq (a b : BitVec 128) : (⟨hornerFold a b⟩ : F128) = ⟨a⟩ * ⟨b⟩ := by
  rw [halves_eq a, halves_eq b, hornerFold]
  generalize a.setWidth 64 = aLo
  generalize (a >>> 64).setWidth 64 = aHi
  generalize b.setWidth 64 = bLo
  generalize (b >>> 64).setWidth 64 = bHi
  rw [fold_stage, fold_stage, mk_xor, carrylessMultiply_eq, carrylessMultiply_eq,
    carrylessMultiply_eq, carrylessMultiply_eq]
  ring

/-- All backends multiply in the field. -/
theorem clmulGcm_eq_mul (backend : Backend) (a b : BitVec 128) :
    (⟨clmulGcm backend a b⟩ : F128) = ⟨a⟩ * ⟨b⟩ := by
  cases backend with
  | pclmulqdq => exact karatsuba_eq carrylessMultiply_eq a b
  | pmull => exact hornerFold_eq a b
  | soft =>
    refine karatsuba_eq ?_ a b
    intro x y
    rw [clmul64x64_eq, carrylessMultiply_eq]

/-- In words: every backend computes the residue of the product. -/
theorem clmulGcm_eq_residue (backend : Backend) (a b : BitVec 128) :
    clmulGcm backend a b = Residue.mul 0x87#128 a b := by
  have product := congrArg F128.bits (clmulGcm_eq_mul backend a b)
  rwa [F128.bits_mul] at product

/-- The modulus of the flat basis. -/
theorem gcm_modulus : modulus 0x87#128 =
    Polynomial.X ^ 128 + Polynomial.X ^ 7 + Polynomial.X ^ 2 + Polynomial.X + 1 := by
  have tail : 0x87#128 = BitVec.twoPow 128 7 ^^^ BitVec.twoPow 128 2 ^^^ BitVec.twoPow 128 1 ^^^
      BitVec.twoPow 128 0 := by
    decide
  rw [modulus, tail, polynomialOf_xor, polynomialOf_xor, polynomialOf_xor,
    polynomialOf_twoPow (by decide), polynomialOf_twoPow (by decide),
    polynomialOf_twoPow (by decide), polynomialOf_twoPow (by decide), pow_one, pow_zero]
  ring

/-! ## The conversion is multiplicative -/

open Blocks in
/-- A word of any level in the flat basis. -/
def flat {w : Nat} (word : BitVec w) : F128 := ⟨towerToFlatU128 (widen 128 word)⟩

/-- The map from any level is additive. -/
theorem flat_xor {w : Nat} (x y : BitVec w) : flat (x ^^^ y) = flat x + flat y := by
  apply F128.ext
  exact (towerToFlatU128_linear.comp Linear.setWidth) x y

/-- The product of two rows of the conversion matrix, evaluated on numbers. -/
def rowProduct (i j : Nat) : Nat :=
  Residue.mulNat 128 0x87 128 (towerToFlat.getD i 0#128).toNat (towerToFlat.getD j 0#128).toNat

/-- A basis vector of a level is mapped to its row of the table. -/
theorem flat_twoPow {w : Nat} (wide : w ≤ 128) {i : Nat} (inside : i < w) :
    flat (BitVec.twoPow w i) = ⟨towerToFlat.getD i 0#128⟩ := by
  rw [flat, Blocks.widen, setWidth_twoPow wide inside, towerToFlatU128_eq,
    applyMatrix_twoPow (by omega)]

/-- A product of two rows can be evaluated on numbers. -/
theorem rows_mul (i j : Nat) :
    ((⟨towerToFlat.getD i 0#128⟩ : F128) * ⟨towerToFlat.getD j 0#128⟩).bits.toNat =
      rowProduct i j := by
  rw [F128.bits_mul, Residue.toNat_mul 0x87#128 (by decide), rowProduct]
  rfl

/-- The image of `X` of the extension of a level of width `w`. -/
def generator (w : Nat) : F128 := ⟨towerToFlat.getD w 0#128⟩

/-- The rows of the upper half are the rows of the lower half times the image of `X`. -/
theorem rows_upper : ∀ w ∈ [8, 16, 32, 64], ∀ i < w,
    rowProduct i w = (towerToFlat.getD (w + i) 0#128).toNat := by
  decide +kernel

/-- The image of `X` satisfies its equation: the constant of a level is its third highest bit. -/
theorem rows_root : ∀ w ∈ [8, 16, 32, 64],
    rowProduct w w = (towerToFlat.getD w 0#128 ^^^ towerToFlat.getD (w - 3) 0#128).toNat := by
  decide +kernel

/-- The rows of the lowest level multiply as its table does. -/
theorem rows_block8 : ∀ i j : Fin 8,
    applyNat (towerToFlat.map BitVec.toNat)
      ((Tower.gf256MulEntry (BitVec.twoPow 8 i) (BitVec.twoPow 8 j)).setWidth 128).toNat =
      rowProduct i j := by
  decide +kernel

/-- The generator of each level satisfies the polynomial of the tower. -/
theorem generator_root {w : Nat} (level : w ∈ [8, 16, 32, 64]) :
    generator w * generator w = generator w + flat (BitVec.twoPow w (w - 3)) := by
  have narrow : w ≤ 128 ∧ 3 ≤ w := by
    simp only [List.mem_cons, List.not_mem_nil, or_false] at level
    omega
  apply F128.ext
  apply BitVec.eq_of_toNat_eq
  rw [flat_twoPow narrow.1 (by omega), generator, rows_mul, rows_root w level]
  rfl

/-- Block8 in the flat basis. -/
theorem flat_gf256MulEntry (a b : BitVec 8) : flat (Tower.gf256MulEntry a b) = flat a * flat b := by
  apply F128.ext
  have linear : Linear (fun word : BitVec 8 => (flat word).bits) :=
    fun x y => congrArg F128.bits (flat_xor x y)
  have left : Linear (fun a : BitVec 8 => (flat a * flat b).bits) := by
    intro x y
    beta_reduce
    rw [flat_xor, add_mul, F128.bits_add]
  refine Linear.eq_of_bits (linear.comp (Tower.gf256MulEntry_linear_left b)) left ?_ a
  intro i
  have right : Linear (fun b : BitVec 8 => (flat (BitVec.twoPow 8 i) * flat b).bits) := by
    intro x y
    beta_reduce
    rw [flat_xor, mul_add, F128.bits_add]
  refine Linear.eq_of_bits (linear.comp (Tower.gf256MulEntry_linear_right _)) right ?_ b
  intro j
  apply BitVec.eq_of_toNat_eq
  rw [flat_twoPow (by decide) i.isLt, flat_twoPow (by decide) j.isLt, rows_mul, ← rows_block8,
    ← toNat_applyMatrix, ← towerToFlatU128_eq]
  rfl

/-- The word with only an upper half. -/
theorem flat_upper {w : Nat} (level : w ∈ [8, 16, 32, 64]) (hi : BitVec w) :
    flat (Blocks.new 0#w hi) = flat hi * generator w := by
  have wide : w + w ≤ 128 := by
    simp only [List.mem_cons, List.not_mem_nil, or_false] at level
    omega
  apply F128.ext
  have left : Linear (fun hi : BitVec w => (flat (Blocks.new 0#w hi)).bits) := by
    intro x y
    beta_reduce
    rw [← F128.bits_add, ← flat_xor, ← Blocks.new_xor, BitVec.xor_self]
  have right : Linear (fun hi : BitVec w => (flat hi * generator w).bits) := by
    intro x y
    beta_reduce
    rw [flat_xor, add_mul, F128.bits_add]
  refine Linear.eq_of_bits left right ?_ hi
  intro i
  have raised : Blocks.new 0#w (BitVec.twoPow w i) = BitVec.twoPow (w + w) (w + i) := by
    apply BitVec.eq_of_getLsbD_eq
    intro k inside
    simp only [Blocks.new_eq_append, BitVec.getLsbD_append, BitVec.getLsbD_twoPow]
    by_cases low : k < w
    · simp [low, show ¬ w + i.val = k by omega]
    · have same : (w + i.val = k) = (i.val = k - w) := by
        simp only [eq_iff_iff]
        omega
      simp [low, same]
  apply BitVec.eq_of_toNat_eq
  rw [raised, flat_twoPow wide (by omega), flat_twoPow (by omega) i.isLt, generator, rows_mul,
    rows_upper w level i i.isLt]

/-- A word of two halves is a linear polynomial in the generator. -/
theorem flat_new {w : Nat} (level : w ∈ [8, 16, 32, 64]) (lo hi : BitVec w) :
    flat (Blocks.new lo hi) = flat lo + flat hi * generator w := by
  have parts : Blocks.new lo hi = Blocks.widen (w + w) lo ^^^ Blocks.new 0#w hi := by
    rw [← Blocks.new_zero, ← Blocks.new_xor, BitVec.xor_zero, BitVec.zero_xor]
  have lower : flat (Blocks.widen (w + w) lo) = flat lo := by
    rw [flat, flat, Blocks.widen_widen _ _ _ (by omega)]
  rw [parts, flat_xor, lower, flat_upper level]

/-- The flat basis as a homomorphism from the field a level represents. -/
structure Flattening {w : Nat} {level : Blocks.TowerField (BitVec w)} {F : Type} [Field F] {tau : F}
    (represents : Blocks.Represents level F tau) where
  hom : F →+* F128
  hom_eq : ∀ x, hom x = flat (represents.code x)

/-- A level that is flattened has its product preserved. -/
theorem Flattening.mul {w : Nat} {level : Blocks.TowerField (BitVec w)} {F : Type} [Field F]
    {tau : F} {represents : Blocks.Represents level F tau} (self : Flattening represents)
    (a b : BitVec w) : flat (level.mul a b) = flat a * flat b := by
  obtain ⟨x, rfl⟩ := represents.code.surjective a
  obtain ⟨y, rfl⟩ := represents.code.surjective b
  rw [← represents.mul, ← self.hom_eq, map_mul, self.hom_eq, self.hom_eq]

/-- From a level to the next: the image of `X` fixes the homomorphism. -/
def Flattening.extension {w : Nat} {below : Blocks.TowerField (BitVec w)} {F : Type} [Field F]
    [CharP F 2] {tau : F} [Rootless tau] {represents : Blocks.Represents below F tau}
    (self : Flattening represents) (binary : Blocks.Binary below) {top : BitVec (w + w)}
    (constant : top = Blocks.new 0#w below.extensionTau) (level : w ∈ [8, 16, 32, 64])
    (position : below.extensionTau = BitVec.twoPow w (w - 3)) :
    Flattening (represents.extension binary constant) where
  hom := Quadratic.lift self.hom (x := generator w) (by
    rw [self.hom_eq, represents.extensionTau, position, generator_root level])
  hom_eq x := by
    rw [Quadratic.lift_apply, self.hom_eq, self.hom_eq, ← flat_new level]
    rfl

def flattenBlock8 : Flattening Blocks.block8Represents where
  hom := {
    toFun := fun x => flat x.bits
    map_zero' := by
      apply F128.ext
      exact (towerToFlatU128_linear.comp Linear.setWidth).map_zero
    map_one' := by
      have unit : (1 : Tower.Block8).bits = BitVec.twoPow 8 0 := rfl
      rw [unit, flat_twoPow (by decide) (by decide)]
      rfl
    map_add' := fun x y => flat_xor x.bits y.bits
    map_mul' := fun x y => flat_gf256MulEntry x.bits y.bits }
  hom_eq _ := rfl

def flattenBlock16 : Flattening Blocks.block16Represents :=
  flattenBlock8.extension Blocks.block8_binary _ (by decide) (by decide)

def flattenBlock32 : Flattening Blocks.block32Represents :=
  flattenBlock16.extension _ _ (by decide) (by decide)

def flattenBlock64 : Flattening Blocks.block64Represents :=
  flattenBlock32.extension _ _ (by decide) (by decide)

def flattenBlock128 : Flattening Blocks.block128Represents :=
  flattenBlock64.extension _ _ (by decide) (by decide)

/-- So the flat product of two flat words is the flat word of the tower product. -/
theorem clmulGcm_towerToFlatU128 (backend : Backend) (a b : BitVec 128) :
    clmulGcm backend (towerToFlatU128 a) (towerToFlatU128 b) =
      towerToFlatU128 (Blocks.block128.mul a b) := by
  have product := congrArg F128.bits (flattenBlock128.mul a b)
  have word : ∀ v : BitVec 128, (flat v).bits = towerToFlatU128 v := by
    intro v
    rw [flat, Blocks.widen, BitVec.setWidth_eq]
  rw [F128.bits_mul, word, word, word] at product
  rw [clmulGcm_eq_residue, product]

/-- The flat basis and the tower basis are two codes of one field. -/
theorem flat_basis_same_field :
    (∀ v, flatToTowerU128 (towerToFlatU128 v) = v) ∧
    (∀ v, towerToFlatU128 (flatToTowerU128 v) = v) ∧
    (∀ v v', towerToFlatU128 (v ^^^ v') = towerToFlatU128 v ^^^ towerToFlatU128 v') ∧
    (∀ v v', flatToTowerU128 (v ^^^ v') = flatToTowerU128 v ^^^ flatToTowerU128 v') ∧
    (∀ backend a b, polynomialOf (clmulGcm backend a b) =
      (polynomialOf a * polynomialOf b) %ₘ
        (Polynomial.X ^ 128 + Polynomial.X ^ 7 + Polynomial.X ^ 2 + Polynomial.X + 1)) ∧
    (∀ backend a b, clmulGcm backend a b = clmulGcm .soft a b) ∧
    (∀ backend a, squareFlatU128 a = clmulGcm backend a a) ∧
    (∀ backend a b, clmulGcm backend (towerToFlatU128 a) (towerToFlatU128 b) =
      towerToFlatU128 (Blocks.block128.mul a b)) := by
  refine ⟨flatToTowerU128_towerToFlatU128, towerToFlatU128_flatToTowerU128,
    towerToFlatU128_linear, flatToTowerU128_linear, ?_, ?_, ?_, clmulGcm_towerToFlatU128⟩
  · intro backend a b
    rw [clmulGcm_eq_residue, polynomialOf_mul, gcm_modulus]
  · intro backend a b
    rw [clmulGcm_eq_residue, clmulGcm_eq_residue]
  · intro backend a
    rw [clmulGcm_eq_residue, squareFlatU128_eq, ghashMul_eq]

end ParanoidChain.Hardware
